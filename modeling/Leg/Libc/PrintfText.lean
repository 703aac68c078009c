import Leg.Lib.Runs
import Leg.Libc.PrintfReads

/-! What the three interpreters of format strings write, `pprintf` of `stdio.c` among them, which
puts escape sequences for colours round the numbers. -/
namespace Leg
open Logged Memory Runs

section Model

/-- The escape sequences `"\033[97m"`, `"\033[31;49m"` and `"\033[0m"`. -/
def escWhite : List UInt8 := 27 :: ascii ['[', '9', '7', 'm']

def escRed : List UInt8 := 27 :: ascii ['[', '3', '1', ';', '4', '9', 'm']

def escReset : List UInt8 := 27 :: ascii ['[', '0', 'm']

/-- A conversion between two escape sequences: the number of characters of all three. -/
def coloured (start : List UInt8) (act : Logged PrintEvent ℕ) : Logged PrintEvent ℕ := do
  let before ← putAll start
  let n ← act
  let after ← putAll escReset
  pure (before + n + after)

/-- The cases of the switch of `pprintf` that take an argument and write it. -/
def pConvert (m : Memory) (t : UInt8) (w : ℕ) : Option (Logged PrintEvent ℕ) :=
  if t = chr 's' then some (printString m w)
  else if t = chr 'c' then some do
    putchar (UInt8.ofNat w)
    pure 1
  else if t = chr 'd' ∨ t = chr 'i' then some (coloured escWhite (printInt w))
  else if t = chr 'u' then some (coloured escWhite (printBase w 10))
  else if t = chr 'x' then some (coloured escWhite (printBase w 16))
  else if t = chr 'o' then some (coloured escWhite (printBase w 8))
  else if t = chr 'b' then some (coloured escWhite (printBase w 2))
  else if t = chr 't' then some (coloured escWhite (putAll (boolText (decide (w ≠ 0)))))
  else if t = chr 'p' then some (coloured escRed (printPtr w))
  else none

/-- A round of the loop of `printf` or of `pprintf`, which differ in their conversions only. -/
def formatRound (conv : Memory → UInt8 → ℕ → Option (Logged PrintEvent ℕ)) (args : ℕ → ℕ)
    (s : PrintState) : Logged PrintEvent (Option PrintState) := do
  Logged.emit (.read s.fmt)
  let c := s.mem s.fmt
  let fmt := u32 (s.fmt + 1)
  if c = 0 then pure none
  else if c ≠ chr '%' then do
    putchar c
    pure (some ⟨s.mem, fmt, s.next, u32 (s.count + 1)⟩)
  else do
    Logged.emit (.read fmt)
    let t := s.mem fmt
    let fmt := u32 (fmt + 1)
    let w := u32 (args s.next)
    if t = chr '%' then do
      putchar (chr '%')
      pure (some ⟨s.mem, fmt, s.next, u32 (s.count + 1)⟩)
    else
      match conv s.mem t w with
      | some convert => do
        let n ← convert
        pure (some ⟨s.mem, fmt, s.next + 1, u32 (s.count + n)⟩)
      | none =>
        if t = chr 'n' then
          pure (some ⟨storeCount s.mem w s.count, fmt, s.next + 1, s.count⟩)
        else do
          let _ ← putAll (ascii ['?', '%'])
          putchar t
          pure none

/-- The loop. -/
def formatLoop (conv : Memory → UInt8 → ℕ → Option (Logged PrintEvent ℕ)) (args : ℕ → ℕ) :
    (fuel : ℕ) → PrintState → Logged PrintEvent Unit
  | 0, _ => Logged.look fun _ => .outOfSteps
  | fuel + 1, s => do
    match ← formatRound conv args s with
    | none => pure ()
    | some s => formatLoop conv args fuel s

/-- `pprintf`, from a state of its loop on. -/
def pprintf (args : ℕ → ℕ) : (fuel : ℕ) → PrintState → Logged PrintEvent Unit :=
  formatLoop pConvert args

end Model

theorem formatLoop_convert (args : ℕ → ℕ) (fuel : ℕ) (s : PrintState) :
    formatLoop convert args fuel s = printf args fuel s := by
  induction fuel generalizing s with
  | zero => rfl
  | succ fuel ih =>
    unfold formatLoop printf
    congr 1
    funext r
    cases r with
    | none => rfl
    | some s => exact ih s

section Text
variable {m : Memory} {t : UInt8} {w : ℕ}

/-- The eight hexadecimal digits of a word, zeros in front too. -/
def ptrText (w : ℕ) : List UInt8 := (List.range 8).map fun k => getSymbol (w / 16 ^ (7 - k) % 16)

/-- What a directive stands for: the string at an address, a character, a numeral in decimal,
hexadecimal, octal or binary, a truth value, or a pointer. -/
def directiveText (m : Memory) (t : UInt8) (w : ℕ) : List UInt8 :=
  if t = chr 's' then (cstr m.readable w).getD []
  else if t = chr 'c' then [UInt8.ofNat w]
  else if t = chr 'd' ∨ t = chr 'i' then signedText 10 (intOfWord w)
  else if t = chr 'u' then numeralText 10 w
  else if t = chr 'x' then numeralText 16 w
  else if t = chr 'o' then numeralText 8 w
  else if t = chr 'b' then numeralText 2 w
  else if t = chr 't' then boolText (decide (w ≠ 0))
  else if t = chr 'p' then ptrText w
  else []

/-- The same in colours. -/
def colouredText (m : Memory) (t : UInt8) (w : ℕ) : List UInt8 :=
  if t = chr 's' ∨ t = chr 'c' then directiveText m t w
  else if t = chr 'p' then escRed ++ directiveText m t w ++ escReset
  else escWhite ++ directiveText m t w ++ escReset

/-- What a format of shared directives stands for, from the `i`-th argument on. -/
def formatText (text : UInt8 → ℕ → List UInt8) (args : ℕ → ℕ) : List UInt8 → ℕ → List UInt8
  | [], _ => []
  | [c], _ => [c]
  | c :: t :: s, i =>
    if c ≠ chr '%' then c :: formatText text args (t :: s) i
    else if t = chr '%' then chr '%' :: formatText text args s i
    else text t (u32 (args i)) ++ formatText text args s (i + 1)

theorem printString_text {z : ℕ} (hz : z < 4294967296) (hzero : m z = 0) (p : ℕ) :
    Prints (printString m p) ((cstr m.readable p).getD [])
      ((cstr m.readable p).getD []).length := by
  obtain ⟨text, htext⟩ := cstr_isSome hz hzero p
  intro l
  rw [printString, htext]
  rfl

theorem printArray_text {array : Option (Memory × ℕ)} {m' : Memory} {p : ℕ} {text : List UInt8}
    (h : array = some (m', p)) (hstring : IsCString m' 0 text) (hproper : (0 : UInt8) ∉ text)
    (hfits : text.length < 4294967296) : Prints (printArray array) text text.length := by
  have hread : cstr m'.readable 0 = some text :=
    (hstring.holds (by omega)).cstrWithin hproper hfits
  intro l
  rw [printArray, h]
  change (printString m' 0) l = _
  rw [printString, hread]
  rfl

theorem numeralText_proper {radix : ℕ} (hradix : 1 < radix) (hmax : radix ≤ 36) (value : ℕ) :
    (0 : UInt8) ∉ numeralText radix value := by
  intro hmem
  obtain ⟨d, hd, hzero⟩ := List.mem_map.mp hmem
  have hsmall := (@numeral_isNumeral radix value hradix).small d hd
  have hnonzero : ∀ d < 36, getSymbol d ≠ 0 := by decide +kernel
  exact hnonzero d (by omega) hzero

theorem printInt_text (w : ℕ) : Prints (printInt w) (signedText 10 (intOfWord w))
    (signedText 10 (intOfWord w)).length := by
  have hmin : -2147483648 ≤ intOfWord w := @Int.le_bmod w 4294967296 (by decide)
  have hmax : intOfWord w < 2147483648 := @Int.bmod_lt w 4294967296 (by decide)
  have hlen := signedText_ten_length hmin hmax
  obtain ⟨m', p, hrun, hwrote⟩ := @itoa_eq 10 (intOfWord w) (by decide) 32 0 (fun _ => 0)
    (le_refl _) hmin hmax (by omega)
  refine printArray_text hrun hwrote.written ?_ (by omega)
  unfold signedText
  split
  · intro hmem
    rcases List.mem_cons.mp hmem with hzero | hmem
    · exact absurd hzero (by decide)
    · exact numeralText_proper (by decide) (by decide) _ hmem
  · exact numeralText_proper (by decide) (by decide) _

theorem printBase_text {base : ℕ} (hbase : 1 < base) (hmax : base ≤ 36) (hw : w < 4294967296) :
    Prints (printBase w base) (numeralText base w) (numeralText base w).length := by
  have hlen := @numeralText_length base w hbase
  have hlog := log_lt_32 hbase hw
  obtain ⟨m', hrun, hwrote⟩ := @utoa_eq base w hbase 32 0 (fun _ => 0) (le_refl _) hw (by omega)
  exact printArray_text hrun hwrote.written (numeralText_proper hbase hmax w) (by omega)

theorem le16_hex8 {b : ℕ} (hb : b < 256) :
    le16 (hex8 b) = [getSymbol (b / 16), getSymbol (b % 16)] := by
  revert b
  decide +kernel

theorem hex32be_eq (hw : w < 4294967296) : hex32be w = ptrText w ++ [0] := by
  have hbyte (k : ℕ) : w >>> k &&& 0xff = w / 2 ^ k % 256 := by
    rw [Nat.shiftRight_eq_div_pow]
    exact Nat.and_two_pow_sub_one_eq_mod _ 8
  have hlt (n : ℕ) : n % 256 < 256 := Nat.mod_lt _ (by decide)
  have hhigh : w / 2 ^ 24 % 256 / 16 = w / 16 ^ 7 % 16 ∧
      w / 2 ^ 24 % 256 % 16 = w / 16 ^ 6 % 16 := by
    omega
  have hupper : w / 2 ^ 16 % 256 / 16 = w / 16 ^ 5 % 16 ∧
      w / 2 ^ 16 % 256 % 16 = w / 16 ^ 4 % 16 := by
    omega
  have hlower : w / 2 ^ 8 % 256 / 16 = w / 16 ^ 3 % 16 ∧
      w / 2 ^ 8 % 256 % 16 = w / 16 ^ 2 % 16 := by
    omega
  have hlow : w / 2 ^ 0 % 256 / 16 = w / 16 ^ 1 % 16 ∧ w / 2 ^ 0 % 256 % 16 = w / 16 ^ 0 % 16 := by
    omega
  unfold hex32be
  rw [hbyte, hbyte, hbyte, hbyte, le16_hex8 (hlt _), le16_hex8 (hlt _), le16_hex8 (hlt _),
    le16_hex8 (hlt _), hhigh.1, hhigh.2, hupper.1, hupper.2, hlower.1, hlower.2, hlow.1, hlow.2]
  rfl

theorem printPtr_text (hw : w < 4294967296) :
    Prints (printPtr w) (ptrText w) (ptrText w).length := by
  have hlen : (ptrText w).length = 8 := by rw [ptrText, List.length_map, List.length_range]
  refine printArray_text rfl ?_ ?_ (by omega)
  · rw [hex32be_eq hw]
    refine ⟨fun k hk => ?_, ?_⟩
    · rw [Nat.zero_add]
      dsimp only
      rw [List.getD_eq_getElem?_getD, List.getElem?_append_left hk,
        List.getElem?_eq_getElem hk, Option.getD_some]
    · rw [Nat.zero_add]
      dsimp only
      rw [List.getD_eq_getElem?_getD, List.getElem?_concat_length, Option.getD_some]
  · intro hmem
    obtain ⟨k, -, hzero⟩ := List.mem_map.mp hmem
    have hnonzero : ∀ d < 16, getSymbol d ≠ 0 := by decide +kernel
    exact hnonzero _ (Nat.mod_lt _ (by decide)) hzero

theorem Prints.of_ite {c : Prop} [Decidable c] {act act' : Logged PrintEvent ℕ}
    {o : Option (Logged PrintEvent ℕ)} {text rest : List UInt8}
    (h : (if c then some act else o) = some act') (hact : Prints act text text.length)
    (hrest : o = some act' → Prints act' rest rest.length) :
    Prints act' (if c then text else rest) (if c then text else rest).length := by
  by_cases hc : c
  · rw [if_pos hc] at h ⊢
    exact Option.some.inj h ▸ hact
  · rw [if_neg hc] at h ⊢
    exact hrest h

theorem convert_text {z : ℕ} (hz : z < 4294967296) (hzero : m z = 0) (hw : w < 4294967296)
    {act : Logged PrintEvent ℕ} (h : convert m t w = some act) :
    Prints act (directiveText m t w) (directiveText m t w).length := by
  unfold convert at h
  unfold directiveText
  refine Prints.of_ite h (printString_text hz hzero w) fun h => ?_
  refine Prints.of_ite h (fun _ => rfl) fun h => ?_
  refine Prints.of_ite h (printInt_text w) fun h => ?_
  refine Prints.of_ite h (printBase_text (by decide) (by decide) hw) fun h => ?_
  refine Prints.of_ite h (printBase_text (by decide) (by decide) hw) fun h => ?_
  refine Prints.of_ite h (printBase_text (by decide) (by decide) hw) fun h => ?_
  refine Prints.of_ite h (printBase_text (by decide) (by decide) hw) fun h => ?_
  refine Prints.of_ite h (putAll_prints _) fun h => ?_
  refine Prints.of_ite h (printPtr_text hw) fun h => ?_
  cases h

theorem Prints.coloured {act : Logged PrintEvent ℕ} {text : List UInt8}
    (h : Prints act text text.length) (start : List UInt8) :
    Prints (coloured start act) (start ++ text ++ escReset) (start ++ text ++ escReset).length := by
  intro l
  unfold Leg.coloured
  rw [(putAll_prints start).bind, h.bind, (putAll_prints escReset).bind]
  simp only [List.map_append, List.append_assoc, List.length_append, Nat.add_assoc]
  rfl

/-- `pprintf` converts as `printf` does, with the colours round it. -/
theorem pConvert_eq (m : Memory) (t : UInt8) (w : ℕ) : pConvert m t w =
    if t = chr 's' ∨ t = chr 'c' then convert m t w
    else (convert m t w).map (coloured (if t = chr 'p' then escRed else escWhite)) := by
  have hne : ∀ u ∈ ascii ['d', 'i', 'u', 'x', 'o', 'b', 't'], u ≠ chr 'p' := by decide +kernel
  unfold pConvert convert
  by_cases hs : t = chr 's'
  · rw [if_pos hs, if_pos (.inl hs), if_pos hs]
  rw [if_neg hs, if_neg hs]
  by_cases hc : t = chr 'c'
  · rw [if_pos hc, if_pos (.inr hc), if_pos hc]
  rw [if_neg hc, if_neg hc, if_neg (not_or.mpr ⟨hs, hc⟩)]
  have hcase {c : Prop} [Decidable c] (act : Logged PrintEvent ℕ)
      {o o' : Option (Logged PrintEvent ℕ)}
      (hcol : c → t ∈ ascii ['d', 'i', 'u', 'x', 'o', 'b', 't'])
      (hrest : o = o'.map (coloured (if t = chr 'p' then escRed else escWhite))) :
      (if c then some (coloured escWhite act) else o) =
        (if c then some act else o').map
          (coloured (if t = chr 'p' then escRed else escWhite)) := by
    by_cases hc : c
    · rw [if_pos hc, if_pos hc, Option.map_some, if_neg (hne t (hcol hc))]
    · rw [if_neg hc, if_neg hc]
      exact hrest
  refine hcase _ (by rintro (rfl | rfl) <;> decide) ?_
  refine hcase _ (by rintro rfl; decide) ?_
  refine hcase _ (by rintro rfl; decide) ?_
  refine hcase _ (by rintro rfl; decide) ?_
  refine hcase _ (by rintro rfl; decide) ?_
  refine hcase _ (by rintro rfl; decide) ?_
  by_cases h : t = chr 'p'
  · simp only [if_pos h, Option.map_some]
  · simp only [if_neg h, Option.map_none]

theorem pConvert_text {z : ℕ} (hz : z < 4294967296) (hzero : m z = 0) (hw : w < 4294967296)
    {act : Logged PrintEvent ℕ} (h : pConvert m t w = some act) :
    Prints act (colouredText m t w) (colouredText m t w).length := by
  rw [pConvert_eq] at h
  unfold colouredText
  split at h
  next hplain =>
    rw [if_pos hplain]
    exact convert_text hz hzero hw h
  next hplain =>
    obtain ⟨act', hact, rfl⟩ := Option.map_eq_some_iff.mp h
    have htext := (convert_text hz hzero hw hact).coloured
    rw [if_neg hplain]
    split
    next => exact htext escRed
    next => exact htext escWhite

end Text

section Rounds
variable {conv : Memory → UInt8 → ℕ → Option (Logged PrintEvent ℕ)} {args : ℕ → ℕ}
  {s : PrintState} {l l' : List PrintEvent} {text : List UInt8}

theorem formatRound_end (h : s.mem s.fmt = 0) :
    formatRound conv args s l = (l ++ [PrintEvent.read s.fmt], .ok none) := by
  rw [formatRound, emit_bind]
  dsimp only
  rw [if_pos h]
  rfl

theorem formatRound_char (hzero : s.mem s.fmt ≠ 0) (hne : s.mem s.fmt ≠ chr '%') :
    formatRound conv args s l = (l ++ [PrintEvent.read s.fmt] ++ [PrintEvent.put (s.mem s.fmt)],
      .ok (some ⟨s.mem, u32 (s.fmt + 1), s.next, u32 (s.count + 1)⟩)) := by
  rw [formatRound, emit_bind]
  dsimp only
  rw [if_neg hzero, if_pos hne]
  rfl

section Directive
variable (h : s.mem s.fmt = chr '%')
include h

theorem formatRound_percent (ht : s.mem (u32 (s.fmt + 1)) = chr '%') :
    formatRound conv args s l =
      (l ++ [PrintEvent.read s.fmt] ++ [PrintEvent.read (u32 (s.fmt + 1))] ++
          [PrintEvent.put (chr '%')],
        .ok (some ⟨s.mem, u32 (u32 (s.fmt + 1) + 1), s.next, u32 (s.count + 1)⟩)) := by
  rw [formatRound, emit_bind]
  dsimp only
  rw [if_neg (by rw [h]; decide), if_neg (not_not.mpr h), emit_bind, if_pos ht]
  rfl

theorem formatRound_convert (ht : s.mem (u32 (s.fmt + 1)) ≠ chr '%')
    {act : Logged PrintEvent ℕ} {n : ℕ}
    (hact : conv s.mem (s.mem (u32 (s.fmt + 1))) (u32 (args s.next)) = some act)
    (hprints : Prints act text n) :
    formatRound conv args s l =
      (l ++ [PrintEvent.read s.fmt] ++ [PrintEvent.read (u32 (s.fmt + 1))] ++ text.map .put,
        .ok (some ⟨s.mem, u32 (u32 (s.fmt + 1) + 1), s.next + 1, u32 (s.count + n)⟩)) := by
  rw [formatRound, emit_bind]
  dsimp only
  rw [if_neg (by rw [h]; decide), if_neg (not_not.mpr h), emit_bind, if_neg ht, hact]
  exact hprints.bind _ _

end Directive

theorem formatLoop_end {fuel : ℕ} (h : formatRound conv args s l = (l', .ok none)) :
    formatLoop conv args (fuel + 1) s l = (l', .ok ()) := by
  rw [formatLoop]
  exact bind_ok h

theorem formatLoop_next {fuel : ℕ} {s' : PrintState}
    (h : formatRound conv args s l = (l', .ok (some s'))) :
    formatLoop conv args (fuel + 1) s l = formatLoop conv args fuel s' l' := by
  rw [formatLoop]
  exact bind_ok h

end Rounds

@[simp] theorem emitted_append (l l' : List PrintEvent) :
    emitted (l ++ l') = emitted l ++ emitted l' := List.filterMap_append

@[simp] theorem emitted_puts (text : List UInt8) : emitted (text.map .put) = text := by
  unfold emitted
  rw [List.filterMap_map]
  exact List.filterMap_some

@[simp] theorem emitted_nil : emitted [] = [] := rfl

@[simp] theorem emitted_read (a : ℕ) (l : List PrintEvent) :
    emitted (.read a :: l) = emitted l := rfl

@[simp] theorem emitted_put (c : UInt8) (l : List PrintEvent) :
    emitted (.put c :: l) = c :: emitted l := rfl

section Runs
variable {conv : Memory → UInt8 → ℕ → Option (Logged PrintEvent ℕ)} {args : ℕ → ℕ} {m : Memory}
  {hi : ℕ} {text : UInt8 → ℕ → List UInt8}

/-- On a format of shared directives the loop comes to the end, and writes what the format stands
for: by induction on its rounds. -/
theorem formatLoop_text (hconv : ∀ t ∈ converting, ∀ w < 4294967296, ∃ act,
      conv m t w = some act ∧ Prints act (text t w) (text t w).length) (fuel : ℕ) :
    ∀ {s : List UInt8} {a i n : ℕ} {l : List PrintEvent}, Rest m a hi s → CommonFormat s →
      s.length < fuel → ∃ l', formatLoop conv args fuel ⟨m, a, i, n⟩ l = (l', .ok ()) ∧
        emitted l' = emitted l ++ formatText text args s i := by
  induction fuel with
  | zero =>
    intro s a i n l _ _ hlt
    exact absurd hlt (Nat.not_lt_zero _)
  | succ fuel ih =>
    intro s a i n l h hcommon hlt
    rcases hcommon.step i with rfl | ⟨s', i', hstep⟩
    · have hstop : a = hi := h.stop
      refine ⟨_, formatLoop_end (formatRound_end (s := ⟨m, a, i, n⟩) (hstop ▸ h.end_zero)), ?_⟩
      simp [formatText]
    have haddr : u32 (a + 1) = a + 1 := by
      cases hstep <;> exact h.next.1
    have hrest := hstep.common hcommon
    cases hstep with
    | @char c _ _ hc =>
      obtain ⟨hbyte, hzero⟩ := h.byte
      subst hbyte
      have hround := @formatRound_char conv args ⟨m, a, i, n⟩ l hzero hc
      rw [formatLoop_next hround, haddr]
      obtain ⟨l', hrun, htext⟩ := ih h.next.2 hrest (Nat.lt_of_succ_lt_succ hlt)
      refine ⟨l', hrun, ?_⟩
      rw [htext]
      cases s' with
      | nil => simp [formatText]
      | cons t s' => simp [formatText, hc]
    | percent =>
      obtain ⟨hbyte, -⟩ := h.byte
      obtain ⟨hbyte', -⟩ := h.next.2.byte
      rw [← haddr] at hbyte'
      have hround := @formatRound_percent conv args ⟨m, a, i, n⟩ l hbyte hbyte'
      rw [formatLoop_next hround, haddr, h.next.2.next.1]
      simp only [List.length_cons] at hlt
      obtain ⟨l', hrun, htext⟩ := ih h.next.2.next.2 hrest (by omega)
      refine ⟨l', hrun, ?_⟩
      rw [htext]
      simp [formatText]
    | @convert t _ _ ht hmem =>
      obtain ⟨hbyte, -⟩ := h.byte
      obtain ⟨hbyte', -⟩ := h.next.2.byte
      rw [← haddr] at hbyte'
      obtain ⟨act, hact, hprints⟩ := hconv t hmem (u32 (args i)) (u32_lt _)
      rw [← hbyte'] at hact
      have hround := @formatRound_convert conv args ⟨m, a, i, n⟩ l _ hbyte
        (fun h => ht (hbyte'.symm.trans h)) _ _ hact hprints
      rw [formatLoop_next hround, haddr, h.next.2.next.1]
      simp only [List.length_cons] at hlt
      obtain ⟨l', hrun, htext⟩ := ih h.next.2.next.2 hrest (by omega)
      refine ⟨l', hrun, ?_⟩
      rw [htext]
      simp [formatText, ht]

end Runs

/-- The text without its escape sequences: what is behind an escape character up to the next `m` is
left out. -/
def stripEscapes : Bool → List UInt8 → List UInt8
  | _, [] => []
  | true, c :: s => stripEscapes (c ≠ chr 'm') s
  | false, c :: s => if c = 27 then stripEscapes true s else c :: stripEscapes false s

section Strip
variable {m : Memory} {args : ℕ → ℕ}

theorem stripEscapes_plain {text : List UInt8} (h : (27 : UInt8) ∉ text) (s : List UInt8) :
    stripEscapes false (text ++ s) = text ++ stripEscapes false s := by
  induction text with
  | nil => rfl
  | cons c text ih =>
    have hc : c ≠ 27 := by
      rintro rfl
      exact h (List.mem_cons_self ..)
    rw [List.cons_append, stripEscapes, if_neg hc, ih fun hmem => h (List.mem_cons_of_mem _ hmem),
      List.cons_append]

theorem stripEscapes_coloured {t : UInt8} {w : ℕ} (h : (27 : UInt8) ∉ directiveText m t w)
    (s : List UInt8) : stripEscapes false (colouredText m t w ++ s) =
      directiveText m t w ++ stripEscapes false s := by
  have hreset : stripEscapes false (escReset ++ s) = stripEscapes false s := rfl
  unfold colouredText
  split
  next => exact stripEscapes_plain h s
  next =>
    split <;> rw [List.append_assoc, List.append_assoc]
    · change stripEscapes false (directiveText m t w ++ (escReset ++ s)) = _
      rw [stripEscapes_plain h, hreset]
    · change stripEscapes false (directiveText m t w ++ (escReset ++ s)) = _
      rw [stripEscapes_plain h, hreset]

/-- Without the colours `pprintf` writes what `printf` does. -/
theorem stripEscapes_formatText (s : List UInt8) (i : ℕ)
    (h : (27 : UInt8) ∉ formatText (directiveText m) args s i) :
    stripEscapes false (formatText (colouredText m) args s i) =
      formatText (directiveText m) args s i := by
  fun_induction formatText (directiveText m) args s i with
  | case1 => rfl
  | case2 c i =>
    have hne : c ≠ 27 := by
      rintro rfl
      exact h (List.mem_cons_self ..)
    simp [formatText, stripEscapes, hne]
  | case3 c t s i hc ih =>
    have hne : c ≠ 27 := by
      rintro rfl
      exact h (List.mem_cons_self ..)
    rw [formatText, if_pos hc, stripEscapes, if_neg hne,
      ih fun hmem => h (List.mem_cons_of_mem _ hmem)]
  | case4 i c s hc ih =>
    rw [formatText, if_neg hc, if_pos rfl, stripEscapes, if_neg (by decide),
      ih fun hmem => h (List.mem_cons_of_mem _ hmem)]
  | case5 i c t s hc ht ih =>
    rw [formatText, if_neg hc, if_neg ht,
      stripEscapes_coloured fun hmem => h (List.mem_append_left _ hmem),
      ih fun hmem => h (List.mem_append_right _ hmem)]

end Strip

/-- On every format of shared directives the three interpreters come to the end. `vkprintf` and
`printf` write exactly what the format stands for, and `pprintf` the same in colours. -/
theorem format_text {m : Memory} {fmt : ℕ} {str : List UInt8} (h : IsCString m fmt str)
    (hproper : (0 : UInt8) ∉ str) (hfits : fmt + str.length < 4294967296)
    (hcommon : CommonFormat str) (args : ℕ → ℕ) {fuel : ℕ} (hfuel : str.length < fuel) :
    (∃ l, vkprintf m args fuel fmt 0 [] = (l, .ok ()) ∧
      emitted l = formatText (directiveText m) args str 0) ∧
    (∃ l, printf args fuel ⟨m, fmt, 0, 0⟩ [] = (l, .ok ()) ∧
      emitted l = formatText (directiveText m) args str 0) ∧
    ∃ l, pprintf args fuel ⟨m, fmt, 0, 0⟩ [] = (l, .ok ()) ∧
      emitted l = formatText (colouredText m) args str 0 ∧
      ((27 : UInt8) ∉ formatText (directiveText m) args str 0 →
        stripEscapes false (emitted l) = formatText (directiveText m) args str 0) := by
  have hrest : Rest m fmt (fmt + str.length) str := ⟨h, hproper, rfl, hfits⟩
  have hplain : ∀ t ∈ converting, ∀ w < 4294967296, ∃ act, convert m t w = some act ∧
      Prints act (directiveText m t w) (directiveText m t w).length := by
    intro t ht w hw
    obtain ⟨act, hact⟩ := Option.ne_none_iff_exists'.mp fun hnone =>
      (convert_eq_none (m := m) (w := w)).mp hnone ht
    exact ⟨act, hact, convert_text hfits hrest.end_zero hw hact⟩
  have hcoloured : ∀ t ∈ converting, ∀ w < 4294967296, ∃ act, pConvert m t w = some act ∧
      Prints act (colouredText m t w) (colouredText m t w).length := by
    intro t ht w hw
    obtain ⟨act, hact, -⟩ := hplain t ht w hw
    have hsome : ∃ act', pConvert m t w = some act' := by
      rw [pConvert_eq, hact]
      split
      · exact ⟨_, rfl⟩
      · exact ⟨_, rfl⟩
    obtain ⟨act', hact'⟩ := hsome
    exact ⟨act', hact', pConvert_text hfits hrest.end_zero hw hact'⟩
  obtain ⟨l, hrun, htext⟩ :=
    @formatLoop_text _ args _ _ _ hplain fuel _ _ 0 0 [] hrest hcommon hfuel
  obtain ⟨l', hrun', htext'⟩ :=
    @formatLoop_text _ args _ _ _ hcoloured fuel _ _ 0 0 [] hrest hcommon hfuel
  rw [formatLoop_convert] at hrun
  refine ⟨⟨l, ?_, htext⟩, ⟨l, hrun, htext⟩, l', hrun', htext', fun hesc => ?_⟩
  · rw [← printf_eq_vkprintf args fuel hrest hcommon]
    exact hrun
  · rw [htext']
    exact stripEscapes_formatText str 0 hesc

theorem format_text_decimal :
    (∃ l, vkprintf formatMemory (fun _ => 7) 7 64 0 [] = (l, .ok ()) ∧
      emitted l = ascii ['d', '=', '7', '%']) ∧
    ∃ l, pprintf (fun _ => 7) 7 ⟨formatMemory, 64, 0, 0⟩ [] = (l, .ok ()) ∧
      emitted l = ascii ['d', '='] ++ (escWhite ++ ascii ['7'] ++ escReset) ++ ascii ['%'] := by
  obtain ⟨hkernel, -, l, hrun, hcolours, -⟩ := @format_text formatMemory 64
    (ascii ['d', '=', '%', 'd', '%', '%']) ⟨by unfold Memory.Stored; decide, rfl⟩ (by decide)
    (by decide) (by decide) (fun _ => 7) 7 (by decide)
  exact ⟨hkernel, l, hrun, hcolours⟩

section Count
variable {conv : Memory → UInt8 → ℕ → Option (Logged PrintEvent ℕ)} {args : ℕ → ℕ} {m : Memory}
  {t : UInt8} {w : ℕ} {s : PrintState}

/-- The number that a computation ends with is the number of characters it has written. -/
def Counts (act : Logged PrintEvent ℕ) : Prop :=
  Adds act fun events n => n = (emitted events).length

theorem putAll_counts (text : List UInt8) : Counts (putAll text) := by
  intro l l' n hrun
  obtain ⟨rfl, hn⟩ := Prod.mk.inj hrun
  obtain rfl := Outcome.ok.inj hn
  exact ⟨text.map .put, rfl, (congrArg List.length (emitted_puts text)).symm⟩

theorem printString_counts (m : Memory) (p : ℕ) : Counts (printString m p) := by
  apply adds_bind (Q := fun events _ => events = []) (adds_look fun _ _ _ => rfl)
  rintro _ text rfl
  exact putAll_counts text

theorem printArray_counts (array : Option (Memory × ℕ)) : Counts (printArray array) := by
  apply adds_bind (Q := fun events _ => events = []) (adds_look fun _ _ _ => rfl)
  rintro _ array rfl
  exact printString_counts array.1 0

theorem Counts.coloured {act : Logged PrintEvent ℕ} (h : Counts act) (start : List UInt8) :
    Counts (coloured start act) := by
  apply adds_bind (putAll_counts start)
  rintro before _ rfl
  apply adds_bind h
  rintro text _ rfl
  apply adds_bind (putAll_counts escReset)
  rintro after _ rfl
  apply adds_pure
  simp only [emitted_append, List.length_append, List.append_nil, Nat.add_assoc]

theorem Counts.of_ite {c : Prop} [Decidable c] {act act' : Logged PrintEvent ℕ}
    {o : Option (Logged PrintEvent ℕ)} (h : (if c then some act else o) = some act')
    (hact : Counts act) (hrest : o = some act' → Counts act') : Counts act' := by
  split at h
  next => exact Option.some.inj h ▸ hact
  next => exact hrest h

theorem convert_counts {act : Logged PrintEvent ℕ} (h : convert m t w = some act) :
    Counts act := by
  unfold convert at h
  refine Counts.of_ite h (printString_counts m w) fun h => ?_
  refine Counts.of_ite h ?_ fun h => ?_
  · apply adds_bind (Q := fun events _ => events = [.put (UInt8.ofNat w)]) (adds_emit rfl)
    rintro _ - rfl
    exact adds_pure rfl
  refine Counts.of_ite h (printArray_counts _) fun h => ?_
  refine Counts.of_ite h (printArray_counts _) fun h => ?_
  refine Counts.of_ite h (printArray_counts _) fun h => ?_
  refine Counts.of_ite h (printArray_counts _) fun h => ?_
  refine Counts.of_ite h (printArray_counts _) fun h => ?_
  refine Counts.of_ite h (putAll_counts _) fun h => ?_
  refine Counts.of_ite h (printArray_counts _) fun h => ?_
  cases h

theorem pConvert_counts {act : Logged PrintEvent ℕ} (h : pConvert m t w = some act) :
    Counts act := by
  rw [pConvert_eq] at h
  split at h
  next => exact convert_counts h
  next =>
    obtain ⟨act', hact, rfl⟩ := Option.map_eq_some_iff.mp h
    exact (convert_counts hact).coloured _

/-- The state is at a `%n`. -/
def AtStore (s : PrintState) : Prop :=
  s.mem s.fmt = chr '%' ∧ s.mem (u32 (s.fmt + 1)) = chr 'n'

/-- What a round does to the count and to the memory. -/
def StoresCount (args : ℕ → ℕ) (s : PrintState) (events : List PrintEvent) (s' : PrintState) :
    Prop :=
  s'.count = u32 (s.count + (emitted events).length) ∧
    (s'.mem = s.mem ∨ AtStore s ∧ s'.mem = storeCount s.mem (u32 (args s.next)) s.count)

/-- A round counts what it writes, and stores the count at a `%n` only. -/
theorem formatRound_counts (hconv : ∀ m t w act, conv m t w = some act → Counts act)
    (hcount : s.count < 4294967296) : Adds (formatRound conv args s)
      fun events o => ∀ s', o = some s' → StoresCount args s events s' := by
  have hkeep : u32 s.count = s.count := Nat.mod_eq_of_lt hcount
  apply adds_bind (Q := fun events _ => emitted events = []) (adds_emit rfl)
  intro events _ hnone
  dsimp only
  split
  next =>
    apply adds_pure
    intro s' h
    cases h
  next =>
    split
    next =>
      apply adds_bind (Q := fun events _ => emitted events = [s.mem s.fmt]) (adds_emit rfl)
      intro more _ hmore
      apply adds_pure
      rintro _ ⟨⟩
      exact ⟨by simp [hnone, hmore], .inl rfl⟩
    next hpercent =>
      apply adds_bind (Q := fun events _ => emitted events = []) (adds_emit rfl)
      intro events' _ hnone'
      split
      next =>
        apply adds_bind (Q := fun events _ => emitted events = [chr '%']) (adds_emit rfl)
        intro more _ hmore
        apply adds_pure
        rintro _ ⟨⟩
        exact ⟨by simp [hnone, hnone', hmore], .inl rfl⟩
      next =>
        split
        next act hact =>
          apply adds_bind (hconv _ _ _ _ hact)
          rintro more n rfl
          apply adds_pure
          rintro _ ⟨⟩
          exact ⟨by simp [hnone, hnone'], .inl rfl⟩
        next =>
          split
          next hn =>
            apply adds_pure
            rintro _ ⟨⟩
            exact ⟨by simp [hnone, hnone', hkeep], .inr ⟨⟨not_not.mp hpercent, hn⟩, rfl⟩⟩
          next =>
            apply adds_bind (putAll_counts _)
            intro more n _
            apply adds_bind (Q := fun _ _ => True) (adds_emit trivial)
            intro more' _ _
            apply adds_pure
            intro s' h
            cases h

/-- The rounds of a call that go on, with the log so far. -/
def FormatStep (conv : Memory → UInt8 → ℕ → Option (Logged PrintEvent ℕ)) (args : ℕ → ℕ)
    (s : PrintState × List PrintEvent) (_ : Unit) (t : PrintState × List PrintEvent) : Prop :=
  formatRound conv args s.1 s.2 = (t.2, .ok (some t.1))

/-- A call that returns has made such a run. -/
theorem formatLoop_run (fuel : ℕ) : ∀ {s : PrintState} {l l' : List PrintEvent},
    formatLoop conv args fuel s l = (l', .ok ()) → ∃ rounds s' before,
      Run (FormatStep conv args) (s, l) rounds (s', before) ∧
      formatRound conv args s' before = (l', .ok none) := by
  induction fuel with
  | zero =>
    intro s l l' h
    obtain ⟨-, hno⟩ := Prod.mk.inj h
    cases hno
  | succ fuel ih =>
    intro s l l' h
    change Logged.bind (formatRound conv args s) _ l = _ at h
    unfold Logged.bind at h
    split at h
    next before o hround =>
      cases o with
      | none =>
        obtain ⟨rfl, -⟩ := Prod.mk.inj h
        exact ⟨[], s, l, .nil _, hround⟩
      | some s' =>
        obtain ⟨rounds, s'', before', hrun, hend⟩ := ih h
        exact ⟨() :: rounds, s'', before', Run.cons (t := (s', before)) hround hrun, hend⟩
    all_goals
      obtain ⟨-, hno⟩ := Prod.mk.inj h
      cases hno

end Count

/-- In every call of `printf` and of `pprintf`, whatever its format, the count is at the start of
each round the number of characters written so far, and the only stores are those of `%n`, which
store it. A call that returns has made such rounds and one more, which stores nothing. -/
theorem format_counts {conv : Memory → UInt8 → ℕ → Option (Logged PrintEvent ℕ)}
    (hconv : conv = convert ∨ conv = pConvert) (args : ℕ → ℕ) (m : Memory) (fmt : ℕ) :
    (∀ rounds s l, Run (FormatStep conv args) (⟨m, fmt, 0, 0⟩, []) rounds (s, l) →
      s.count = u32 (emitted l).length ∧
      ∀ s' l', FormatStep conv args (s, l) () (s', l') → s'.mem = s.mem ∨ AtStore s ∧
        s'.mem = storeCount s.mem (u32 (args s.next)) (u32 (emitted l).length)) ∧
    ∀ fuel l', formatLoop conv args fuel ⟨m, fmt, 0, 0⟩ [] = (l', .ok ()) → ∃ rounds s l,
      Run (FormatStep conv args) (⟨m, fmt, 0, 0⟩, []) rounds (s, l) ∧
      formatRound conv args s l = (l', .ok none) ∧ s.count = u32 (emitted l).length := by
  have hcounts : ∀ m t w act, conv m t w = some act → Counts act := by
    rcases hconv with rfl | rfl
    · exact fun m t w act => convert_counts
    · exact fun m t w act => pConvert_counts
  have hinvariant {rounds : List Unit} {s : PrintState × List PrintEvent}
      (hrun : Run (FormatStep conv args) (⟨m, fmt, 0, 0⟩, []) rounds s) :
      s.1.count = u32 (emitted s.2).length :=
    hrun.preserves (I := fun s => s.1.count = u32 (emitted s.2).length) (by
      intro s _ t hcount hround
      obtain ⟨events, hlog, hstores⟩ :=
        formatRound_counts hcounts (hcount ▸ u32_lt _) s.2 t.2 _ hround
      obtain ⟨hcount', -⟩ := hstores t.1 rfl
      rw [hcount', hlog, hcount]
      simp only [emitted_append, List.length_append]
      exact Nat.mod_add_mod ..) rfl
  constructor
  · intro rounds s l hrun
    have hcount : s.count = u32 (emitted l).length := hinvariant hrun
    refine ⟨hcount, fun s' l' hstep => ?_⟩
    obtain ⟨events, -, hstores⟩ := formatRound_counts hcounts (hcount ▸ u32_lt _) l l' _ hstep
    obtain ⟨-, hmem⟩ := hstores s' rfl
    rwa [hcount] at hmem
  · intro fuel l' hloop
    obtain ⟨rounds, s, l, hrun, hend⟩ := formatLoop_run fuel hloop
    exact ⟨rounds, s, l, hrun, hend, hinvariant hrun⟩

/-- The memory of a format `%d%n`. -/
def storeMemory : Memory := fun a => (ascii ['%', 'd', '%', 'n']).getD (a - 64) 0

/-- What `pprintf` writes for the number seven. -/
def storeLog : List PrintEvent :=
  .read 64 :: .read 65 :: (escWhite ++ ascii ['7'] ++ escReset).map .put

/-- The round of `%n` behind it stores ten. -/
theorem format_counts_coloured : 10 = u32 (emitted storeLog).length ∧
    (storeCount storeMemory 128 10 = storeMemory ∨ AtStore ⟨storeMemory, 66, 1, 10⟩ ∧
      storeCount storeMemory 128 10 =
        storeCount storeMemory 128 (u32 (emitted storeLog).length)) := by
  have hrun : Run (FormatStep pConvert fun i => if i = 0 then 7 else 128)
      (⟨storeMemory, 64, 0, 0⟩, []) [()] (⟨storeMemory, 66, 1, 10⟩, storeLog) :=
    .single (by unfold FormatStep; rfl)
  have hstep : FormatStep pConvert (fun i => if i = 0 then 7 else 128)
      (⟨storeMemory, 66, 1, 10⟩, storeLog) ()
      (⟨storeCount storeMemory 128 10, 68, 2, 10⟩, storeLog ++ [.read 66] ++ [.read 67]) := by
    unfold FormatStep
    rfl
  obtain ⟨hcount, hstores⟩ := (format_counts (.inr rfl) _ storeMemory 64).1 _ _ _ hrun
  exact ⟨hcount, hstores _ _ hstep⟩

end Leg

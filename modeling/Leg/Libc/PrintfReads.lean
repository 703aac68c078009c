import Leg.Libc.PrintfRounds

/-! How far `vkprintf` and `printf` read a format string, and where they write the same. -/
namespace Leg
open Logged Memory

/-- The characters that have been written. -/
def emitted (l : List PrintEvent) : List UInt8 := l.filterMap fun
  | .put c => some c
  | .read _ => none

/-- No byte of the format outside `lo` to `hi` has been read. -/
def ReadsWithin (lo hi : ℕ) (l : List PrintEvent) : Prop := ∀ a, .read a ∈ l → lo ≤ a ∧ a ≤ hi

/-- A format that is made only of literal text and directives that both support. -/
def CommonFormat : List UInt8 → Prop
  | [] => True
  | [c] => c ≠ chr '%'
  | c :: t :: s =>
    if c = chr '%' then (t = chr '%' ∨ t ∈ converting) ∧ CommonFormat s else CommonFormat (t :: s)

instance decidableCommonFormat : (s : List UInt8) → Decidable (CommonFormat s)
  | [] => isTrue trivial
  | [c] => inferInstanceAs (Decidable (c ≠ chr '%'))
  | c :: t :: s =>
    have := decidableCommonFormat s
    have := decidableCommonFormat (t :: s)
    inferInstanceAs (Decidable (if c = chr '%' then
      (t = chr '%' ∨ t ∈ converting) ∧ CommonFormat s else CommonFormat (t :: s)))

/-- The last directive of the format has no character. -/
def endsLone : List UInt8 → Bool
  | [] => false
  | [c] => c = chr '%'
  | c :: t :: s => if c = chr '%' then endsLone s else endsLone (t :: s)

/-- The numbers of the arguments that `printf` takes for addresses to store its count at. -/
def storeArgs : List UInt8 → ℕ → List ℕ
  | [], _ => []
  | [_], _ => []
  | c :: t :: s, i =>
    if c ≠ chr '%' then storeArgs (t :: s) i
    else if t = chr '%' then storeArgs s i
    else if t ∈ converting then storeArgs s (i + 1)
    else if t = chr 'n' then i :: storeArgs s (i + 1)
    else []

/-- The places that `printf` stores its count at are outside the format. -/
def StoresOutside (args : ℕ → ℕ) (lo hi : ℕ) (s : List UInt8) (i : ℕ) : Prop :=
  ∀ j ∈ storeArgs s i, ∀ k < 4, u32 (args j + k) < lo ∨ hi < u32 (args j + k)

/-- The percent signs at the end of a format. -/
def percentsAtEnd (s : List UInt8) : ℕ := (s.reverse.takeWhile (· == chr '%')).length

section Parity
variable {c t : UInt8} {s : List UInt8}

theorem percentsAtEnd_le (s : List UInt8) : percentsAtEnd s ≤ s.length := by
  have h := (List.takeWhile_prefix (· == chr '%') (l := s.reverse)).length_le
  rwa [List.length_reverse] at h

theorem percentsAtEnd_cons (c : UInt8) (s : List UInt8) : percentsAtEnd (c :: s) =
    if percentsAtEnd s = s.length then s.length + (if c = chr '%' then 1 else 0)
    else percentsAtEnd s := by
  unfold percentsAtEnd
  rw [List.reverse_cons, List.takeWhile_append, List.length_reverse]
  split
  · by_cases hc : c = chr '%' <;> simp [hc]
  · rfl

theorem percentsAtEnd_char (hc : c ≠ chr '%') : percentsAtEnd (c :: s) = percentsAtEnd s := by
  rw [percentsAtEnd_cons, if_neg hc]
  split
  next h => exact h.symm
  next => rfl

theorem percentsAtEnd_directive (t : UInt8) (s : List UInt8) :
    percentsAtEnd (chr '%' :: t :: s) % 2 = percentsAtEnd s % 2 := by
  have hle := percentsAtEnd_le s
  rw [percentsAtEnd_cons]
  by_cases ht : t = chr '%'
  · rw [percentsAtEnd_cons t, if_pos ht, if_pos rfl, List.length_cons]
    split_ifs <;> omega
  · rw [percentsAtEnd_char ht, List.length_cons, if_neg (by omega)]

theorem endsLone_iff (s : List UInt8) : endsLone s = true ↔ percentsAtEnd s % 2 = 1 := by
  fun_induction endsLone s with
  | case1 => decide
  | case2 c =>
    rw [decide_eq_true_iff, percentsAtEnd_cons]
    by_cases hc : c = chr '%' <;> simp [hc, percentsAtEnd]
  | case3 t s ih => rw [ih, percentsAtEnd_directive]
  | case4 c t s hc ih => rw [ih, percentsAtEnd_char hc]

end Parity

/-- What is behind the first character or directive of a format, and the number of the argument
that is next there, where both interpreters support it. -/
inductive SharedStep : List UInt8 → ℕ → List UInt8 → ℕ → Prop
  | char {c : UInt8} {s : List UInt8} {i : ℕ} (hc : c ≠ chr '%') : SharedStep (c :: s) i s i
  | percent {s : List UInt8} {i : ℕ} : SharedStep (chr '%' :: chr '%' :: s) i s i
  | convert {t : UInt8} {s : List UInt8} {i : ℕ} (ht : t ≠ chr '%') (hmem : t ∈ converting) :
    SharedStep (chr '%' :: t :: s) i s (i + 1)

theorem format_cases (s : List UInt8) (i : ℕ) :
    s = [] ∨ s = [chr '%'] ∨ (∃ s' i', SharedStep s i s' i') ∨
      ∃ t s', s = chr '%' :: t :: s' ∧ t ≠ chr '%' ∧ t ∉ converting := by
  cases s with
  | nil => exact Or.inl rfl
  | cons c s =>
    by_cases hc : c = chr '%'
    · subst hc
      cases s with
      | nil => exact Or.inr (Or.inl rfl)
      | cons t s =>
        by_cases ht : t = chr '%'
        · subst ht
          exact Or.inr (Or.inr (Or.inl ⟨s, i, .percent⟩))
        by_cases hmem : t ∈ converting
        · exact Or.inr (Or.inr (Or.inl ⟨s, i + 1, .convert ht hmem⟩))
        · exact Or.inr (Or.inr (Or.inr ⟨t, s, rfl, ht, hmem⟩))
    · exact Or.inr (Or.inr (Or.inl ⟨s, i, .char hc⟩))

namespace SharedStep
variable {s s' : List UInt8} {i i' : ℕ}

theorem endsLone_eq (h : SharedStep s i s' i') : endsLone s = endsLone s' := by
  cases h with
  | @char c _ _ hc =>
    cases s' with
    | nil => simp [endsLone, hc]
    | cons t s' => rw [endsLone, if_neg hc]
  | percent => rw [endsLone, if_pos rfl]
  | convert ht hmem => rw [endsLone, if_pos rfl]

theorem storeArgs_eq (h : SharedStep s i s' i') : storeArgs s i = storeArgs s' i' := by
  cases h with
  | @char c _ _ hc =>
    cases s' with
    | nil => simp [storeArgs]
    | cons t s' => rw [storeArgs, if_pos hc]
  | percent => rw [storeArgs, if_neg (not_not.mpr rfl), if_pos rfl]
  | convert ht hmem => rw [storeArgs, if_neg (not_not.mpr rfl), if_neg ht, if_pos hmem]

theorem common (h : SharedStep s i s' i') (hs : CommonFormat s) : CommonFormat s' := by
  cases h with
  | @char c _ _ hc =>
    cases s' with
    | nil => trivial
    | cons t s' => rwa [CommonFormat, if_neg hc] at hs
  | percent =>
    rw [CommonFormat, if_pos rfl] at hs
    exact hs.2
  | convert ht hmem =>
    rw [CommonFormat, if_pos rfl] at hs
    exact hs.2

end SharedStep

theorem CommonFormat.step {s : List UInt8} (h : CommonFormat s) (i : ℕ) :
    s = [] ∨ ∃ s' i', SharedStep s i s' i' := by
  rcases format_cases s i with rfl | rfl | hstep | ⟨t, s', rfl, ht, hmem⟩
  · exact Or.inl rfl
  · exact absurd rfl h
  · exact Or.inr hstep
  · rw [CommonFormat, if_pos rfl] at h
    exact absurd h.1 (not_or.mpr ⟨ht, hmem⟩)

section Strings
variable {lo hi : ℕ} {l : List PrintEvent} {text : List UInt8}

theorem ReadsWithin.puts (h : ReadsWithin lo hi l) (text : List UInt8) :
    ReadsWithin lo hi (l ++ text.map .put) := by
  intro a hmem
  rcases List.mem_append.mp hmem with hmem | hmem
  · exact h a hmem
  · obtain ⟨c, -, hc⟩ := List.mem_map.mp hmem
    exact nomatch hc

theorem ReadsWithin.read (h : ReadsWithin lo hi l) {a : ℕ} (hlow : lo ≤ a) (hhigh : a ≤ hi) :
    ReadsWithin lo hi (l ++ [.read a]) := by
  intro b hmem
  rcases List.mem_append.mp hmem with hmem | hmem
  · exact h b hmem
  · cases List.mem_singleton.mp hmem
    exact ⟨hlow, hhigh⟩

/-- A format behind the place that has been read so far, up to the end `hi` of the whole. -/
structure Rest (m : Memory) (a hi : ℕ) (s : List UInt8) : Prop where
  string : IsCString m a s
  proper : (0 : UInt8) ∉ s
  stop : a + s.length = hi
  fits : hi < 4294967296

namespace Rest
variable {m : Memory} {a : ℕ} {c t : UInt8} {s : List UInt8}

theorem byte (h : Rest m a hi (c :: s)) : m a = c ∧ c ≠ 0 :=
  ⟨h.string.byte_cons, fun hzero => h.proper (hzero ▸ List.mem_cons_self ..)⟩

theorem end_zero (h : Rest m a hi s) : m hi = 0 := h.stop ▸ h.string.2

theorem next (h : Rest m a hi (c :: s)) : u32 (a + 1) = a + 1 ∧ Rest m (a + 1) hi s := by
  obtain ⟨hstring, hproper, hstop, hfits⟩ := h
  rw [List.length_cons] at hstop
  exact ⟨u32_of_lt (by omega), hstring.next, fun hm => hproper (List.mem_cons_of_mem _ hm),
    by omega, hfits⟩

end Rest

end Strings

section Runs
variable {m : Memory} {args : ℕ → ℕ} {a i lo hi fuel : ℕ} {s text : List UInt8}
  {l l' : List PrintEvent}

theorem vkprintf_end (h : vkprintfRound m args a i l = (l', .ok none)) :
    vkprintf m args (fuel + 1) a i l = (l', .ok ()) := by
  rw [vkprintf]
  exact bind_ok h

theorem vkprintf_next {a' i' : ℕ} (h : vkprintfRound m args a i l = (l', .ok (some (a', i')))) :
    vkprintf m args (fuel + 1) a i l = vkprintf m args fuel a' i' l' := by
  rw [vkprintf]
  exact bind_ok h

theorem printf_end {st : PrintState} (h : printfRound args st l = (l', .ok none)) :
    printf args (fuel + 1) st l = (l', .ok ()) := by
  rw [printf]
  exact bind_ok h

theorem printf_next {st st' : PrintState} (h : printfRound args st l = (l', .ok (some st'))) :
    printf args (fuel + 1) st l = printf args fuel st' l' := by
  rw [printf]
  exact bind_ok h

theorem Rest.converts {t : UInt8} (h : Rest m a hi s) (ht : t ∈ converting) (w : ℕ) :
    ∃ act text, convert m t (u32 w) = some act ∧ Prints act text text.length := by
  have hsome : convert m t (u32 w) ≠ none := fun hnone => convert_eq_none.mp hnone ht
  obtain ⟨act, hact⟩ := Option.ne_none_iff_exists'.mp hsome
  obtain ⟨text, htext⟩ := convert_prints h.fits h.end_zero (u32_lt w) hact
  exact ⟨act, text, hact, htext⟩

theorem ReadsWithin.append (h : ReadsWithin lo hi l) {events : List PrintEvent}
    (hevents : ReadsWithin lo hi events) : ReadsWithin lo hi (l ++ events) :=
  fun b hmem => (List.mem_append.mp hmem).elim (h b) (hevents b)

theorem ReadsWithin.mono {lo' : ℕ} (h : ReadsWithin lo' hi l) (hle : lo ≤ lo') :
    ReadsWithin lo hi l := fun b hmem => ⟨hle.trans (h b hmem).1, (h b hmem).2⟩

/-- What a round that goes on has come to: a later place in the same format. -/
structure Advance (m : Memory) (hi a : ℕ) (s : List UInt8) (a' : ℕ) (s' : List UInt8)
    (events : List PrintEvent) : Prop where
  rest : Rest m a' hi s'
  onward : a ≤ a'
  shorter : s'.length < s.length
  reads : ReadsWithin a hi events

section Heads
variable {c t : UInt8}

theorem Rest.advance_char (h : Rest m a hi (c :: s)) (text : List UInt8) :
    Advance m hi a (c :: s) (a + 1) s ([.read a] ++ text.map .put) where
  rest := h.next.2
  onward := Nat.le_succ a
  shorter := Nat.lt_succ_self _
  reads := by
    have hread : ReadsWithin a hi [.read a] := fun b hmem => by
      obtain rfl := PrintEvent.read.inj (List.mem_singleton.mp hmem)
      exact ⟨le_refl _, h.stop ▸ Nat.le_add_right _ _⟩
    exact hread.puts text

theorem Rest.advance_directive (h : Rest m a hi (c :: t :: s)) (text : List UInt8) :
    Advance m hi a (c :: t :: s) (a + 1 + 1) s
      ([.read a] ++ [.read (a + 1)] ++ text.map .put) where
  rest := h.next.2.next.2
  onward := by omega
  shorter := by
    simp only [List.length_cons]
    omega
  reads := by
    have hnil : ReadsWithin a hi [] := fun _ hmem => absurd hmem List.not_mem_nil
    have hstop := h.stop
    simp only [List.length_cons] at hstop
    exact ((hnil.read (le_refl a) (by omega)).read (Nat.le_succ a) (by omega)).puts text

end Heads

/-- A round at a shared character or directive reads it and nothing else of the format, and both
interpreters do the same there. -/
theorem Rest.shared_round {s' : List UInt8} {i' : ℕ} (h : Rest m a hi s)
    (hstep : SharedStep s i s' i') (args : ℕ → ℕ) :
    ∃ a' events, Advance m hi a s a' s' events ∧
      (∀ l, vkprintfRound m args a i l = (l ++ events, .ok (some (a', i')))) ∧
      ∀ n, ∃ n', ∀ l,
        printfRound args ⟨m, a, i, n⟩ l = (l ++ events, .ok (some ⟨m, a', i', n'⟩)) := by
  have haddr : u32 (a + 1) = a + 1 := by
    cases hstep <;> exact h.next.1
  cases hstep with
  | @char c _ _ hc =>
    obtain ⟨hbyte, hzero⟩ := h.byte
    subst hbyte
    refine ⟨a + 1, _, h.advance_char [m a], fun l => ?_,
      fun n => ⟨u32 (n + 1), fun l => ?_⟩⟩
    · rw [vkprintfRound_char hzero hc, haddr]
      simp
    · rw [printfRound_char hzero hc, haddr]
      simp
  | percent =>
    obtain ⟨hbyte, -⟩ := h.byte
    obtain ⟨hbyte', -⟩ := h.next.2.byte
    rw [← haddr] at hbyte'
    refine ⟨a + 1 + 1, _, h.advance_directive [chr '%'], fun l => ?_,
      fun n => ⟨u32 (n + 1), fun l => ?_⟩⟩
    · rw [vkprintfRound_percent hbyte hbyte', haddr, h.next.2.next.1]
      simp
    · rw [printfRound_percent hbyte hbyte', haddr, h.next.2.next.1]
      simp
  | @convert t _ _ ht hmem =>
    obtain ⟨hbyte, -⟩ := h.byte
    obtain ⟨hbyte', -⟩ := h.next.2.byte
    rw [← haddr] at hbyte'
    obtain ⟨act, text, hact, hprints⟩ := h.converts hmem (args i)
    rw [← hbyte'] at ht hact
    refine ⟨a + 1 + 1, _, h.advance_directive text, fun l => ?_,
      fun n => ⟨u32 (n + text.length), fun l => ?_⟩⟩
    · rw [vkprintfRound_convert hbyte ht hact hprints, haddr, h.next.2.next.1]
      simp
    · rw [printfRound_convert hbyte ht hact hprints, haddr, h.next.2.next.1]
      simp

theorem Rest.other_round {t : UInt8} (h : Rest m a hi (chr '%' :: t :: s)) (ht : t ≠ chr '%')
    (hmem : t ∉ converting) (args : ℕ → ℕ) (i : ℕ) :
    ∃ a' events, Advance m hi a (chr '%' :: t :: s) a' s events ∧
      ∀ l, vkprintfRound m args a i l = (l ++ events, .ok (some (a', i))) := by
  obtain ⟨haddr, hnext⟩ := h.next
  obtain ⟨hbyte, -⟩ := h.byte
  obtain ⟨hbyte', -⟩ := hnext.byte
  have hstop := h.stop
  simp only [List.length_cons] at hstop
  have hadv := h.advance_directive [chr '?', chr '%']
  rw [← haddr] at hbyte'
  rw [← hbyte'] at ht hmem
  refine ⟨a + 1 + 1, _, { hadv with
    reads := (hadv.reads.read (a := a + 1) (by omega) (by omega)).puts [t] },
    fun l => ?_⟩
  rw [vkprintfRound_other hbyte ht hmem, haddr, hnext.next.1, ← hbyte', haddr]
  simp

/-- Where no `%` is left over at the end, `vkprintf` reads the format up to its NUL only, by
induction on its rounds. -/
theorem vkprintf_reads (fuel : ℕ) : ∀ {s : List UInt8} {a i : ℕ} {l : List PrintEvent},
    Rest m a hi s → endsLone s = false → lo ≤ a → ReadsWithin lo hi l →
    ReadsWithin lo hi (vkprintf m args fuel a i l).1 := by
  induction fuel with
  | zero =>
    intro s a i l _ _ _ hl
    exact hl
  | succ fuel ih =>
    intro s a i l h hlone hlow hl
    rcases format_cases s i with rfl | rfl | ⟨s', i', hstep⟩ | ⟨t, s', rfl, ht, hmem⟩
    · have hstop : a = hi := h.stop
      rw [vkprintf_end (vkprintfRound_end (hstop ▸ h.end_zero))]
      exact hl.read hlow hstop.le
    · exact nomatch hlone
    · obtain ⟨a', events, hadv, hround, -⟩ := h.shared_round hstep args
      rw [vkprintf_next (hround l)]
      exact ih hadv.rest (hstep.endsLone_eq ▸ hlone) (hlow.trans hadv.onward)
        (hl.append (hadv.reads.mono hlow))
    · obtain ⟨a', events, hadv, hround⟩ := h.other_round ht hmem args i
      rw [vkprintf_next (hround l)]
      rw [endsLone, if_pos rfl] at hlone
      exact ih hadv.rest hlone (hlow.trans hadv.onward) (hl.append (hadv.reads.mono hlow))

theorem vkprintfRound_reads {z : ℕ} (hz : z < 4294967296) (hzero : m z = 0) (args : ℕ → ℕ)
    (a i : ℕ) : ∃ l' next, .read a ∈ l' ∧ vkprintfRound m args a i l = (l', .ok next) := by
  by_cases hend : m a = 0
  · exact ⟨_, _, by simp, vkprintfRound_end hend⟩
  by_cases hc : m a = chr '%'
  · by_cases ht : m (u32 (a + 1)) = chr '%'
    · exact ⟨_, _, by simp, vkprintfRound_percent hc ht⟩
    by_cases hmem : m (u32 (a + 1)) ∈ converting
    · obtain ⟨act, hact⟩ := Option.ne_none_iff_exists'.mp fun hnone =>
        convert_eq_none (m := m) (w := u32 (args i)) |>.mp hnone hmem
      obtain ⟨text, htext⟩ := convert_prints hz hzero (u32_lt _) hact
      exact ⟨_, _, by simp, vkprintfRound_convert hc ht hact htext⟩
    · exact ⟨_, _, by simp, vkprintfRound_other hc ht hmem⟩
  · exact ⟨_, _, by simp, vkprintfRound_char hend hc⟩

theorem vkprintf_reads_first {z : ℕ} (hz : z < 4294967296) (hzero : m z = 0) (args : ℕ → ℕ)
    (a i : ℕ) (l : List PrintEvent) : .read a ∈ (vkprintf m args 1 a i l).1 := by
  obtain ⟨l', next, hmem, hround⟩ := vkprintfRound_reads (l := l) hz hzero args a i
  cases next with
  | none => rwa [vkprintf_end hround]
  | some next =>
    rw [vkprintf_next hround]
    exact hmem

/-- Where a `%` is left over, `vkprintf` comes to read the byte behind the NUL. -/
theorem vkprintf_overruns (args : ℕ → ℕ) {s : List UInt8} {a i : ℕ} (h : Rest m a hi s)
    (hlone : endsLone s = true) :
    ∃ fuel, ∀ l, .read (u32 (hi + 1)) ∈ (vkprintf m args fuel a i l).1 := by
  induction hn : s.length using Nat.strong_induction_on generalizing s a i with
  | _ n ih =>
    rcases format_cases s i with rfl | rfl | ⟨s', i', hstep⟩ | ⟨t, s', rfl, ht, hmem⟩
    · exact nomatch hlone
    · -- the round at the `%` consumes the NUL, and the next round is the one behind it
      have haddr : u32 (a + 1) = hi := h.next.1.trans h.next.2.stop
      have hzero : m (u32 (a + 1)) = 0 := haddr ▸ h.end_zero
      refine ⟨2, fun l => ?_⟩
      have hround := @vkprintfRound_other m args a i l h.byte.1
        (by rw [hzero]; decide) (by rw [hzero]; decide)
      rw [haddr] at hround
      rw [vkprintf_next hround]
      exact vkprintf_reads_first h.fits h.end_zero args _ i _
    · obtain ⟨a', events, hadv, hround, -⟩ := h.shared_round hstep args
      obtain ⟨fuel, hfuel⟩ := ih _ (hn ▸ hadv.shorter) (i := i') hadv.rest
        (hstep.endsLone_eq ▸ hlone) rfl
      refine ⟨fuel + 1, fun l => ?_⟩
      rw [vkprintf_next (hround l)]
      exact hfuel _
    · obtain ⟨a', events, hadv, hround⟩ := h.other_round ht hmem args i
      rw [endsLone, if_pos rfl] at hlone
      obtain ⟨fuel, hfuel⟩ := ih _ (hn ▸ hadv.shorter) (i := i) hadv.rest hlone rfl
      refine ⟨fuel + 1, fun l => ?_⟩
      rw [vkprintf_next (hround l)]
      exact hfuel _

theorem vkprintf_ends (args : ℕ → ℕ) (fuel : ℕ) : ∀ {s : List UInt8} {a i : ℕ}
    {l : List PrintEvent}, Rest m a hi s → CommonFormat s → s.length < fuel →
    (vkprintf m args fuel a i l).2 = .ok () := by
  induction fuel with
  | zero =>
    intro s a i l _ _ hlt
    exact absurd hlt (Nat.not_lt_zero _)
  | succ fuel ih =>
    intro s a i l h hcommon hlt
    rcases hcommon.step i with rfl | ⟨s', i', hstep⟩
    · have hstop : a = hi := h.stop
      rw [vkprintf_end (vkprintfRound_end (hstop ▸ h.end_zero))]
    · obtain ⟨a', events, hadv, hround, -⟩ := h.shared_round hstep args
      rw [vkprintf_next (hround l)]
      exact ih hadv.rest (hstep.common hcommon)
        (hadv.shorter.trans_le (Nat.le_of_lt_succ hlt))

theorem printf_eq_vkprintf (args : ℕ → ℕ) (fuel : ℕ) : ∀ {s : List UInt8} {a i n : ℕ}
    {l : List PrintEvent}, Rest m a hi s → CommonFormat s →
    printf args fuel ⟨m, a, i, n⟩ l = vkprintf m args fuel a i l := by
  induction fuel with
  | zero =>
    intro s a i n l _ _
    rfl
  | succ fuel ih =>
    intro s a i n l h hcommon
    rcases hcommon.step i with rfl | ⟨s', i', hstep⟩
    · have hstop : a = hi := h.stop
      have hzero : m a = 0 := hstop ▸ h.end_zero
      rw [vkprintf_end (vkprintfRound_end hzero), printf_end (printfRound_end hzero)]
    · obtain ⟨a', events, hadv, hround, huser⟩ := h.shared_round hstep args
      obtain ⟨n', huser⟩ := huser n
      rw [vkprintf_next (hround l), printf_next (huser l)]
      exact ih hadv.rest (hstep.common hcommon)

theorem Rest.stored {p n : ℕ} (h : Rest m a hi s) (hlow : lo ≤ a)
    (hout : ∀ k < 4, u32 (p + k) < lo ∨ hi < u32 (p + k)) :
    Rest (storeCount m (u32 p) n) a hi s where
  string := h.string.agree fun b hb hlt => by
    have hstop := h.stop
    have hfits := h.fits
    unfold storeCount
    split
    next hin =>
      have hback : u32 (p + wsub b (u32 p)) = b := by
        unfold wsub u32
        omega
      have hcase := hout _ hin.2
      rw [hback] at hcase
      omega
    · rfl
  proper := h.proper
  stop := h.stop
  fits := h.fits

/-- A round of `printf` at any other directive: it returns, or it stores its count and goes on. -/
theorem Rest.other_user_round {t : UInt8} {n : ℕ} (h : Rest m a hi (chr '%' :: t :: s))
    (ht : t ≠ chr '%') (hmem : t ∉ converting) (hlow : lo ≤ a)
    (hout : StoresOutside args lo hi (chr '%' :: t :: s) i) :
    ∃ events next, ReadsWithin a hi events ∧
      (∀ l, printfRound args ⟨m, a, i, n⟩ l = (l ++ events, .ok next)) ∧
      ∀ st, next = some st →
        Rest st.mem st.fmt hi s ∧ a ≤ st.fmt ∧ StoresOutside args lo hi s st.next := by
  obtain ⟨haddr, hnext⟩ := h.next
  obtain ⟨hbyte, -⟩ := h.byte
  obtain ⟨hbyte', -⟩ := hnext.byte
  rw [← haddr] at hbyte'
  by_cases hn : t = chr 'n'
  · subst hn
    have hadv := h.advance_directive []
    unfold StoresOutside at hout
    rw [storeArgs, if_neg (not_not.mpr rfl), if_neg ht, if_neg hmem, if_pos rfl] at hout
    refine ⟨_, some ⟨storeCount m (u32 (args i)) n, a + 1 + 1, i + 1, n⟩, hadv.reads,
      fun l => ?_, ?_⟩
    · rw [printfRound_store hbyte hbyte', haddr, hnext.next.1]
      simp
    · intro st hst
      obtain rfl := Option.some.inj hst
      exact ⟨hadv.rest.stored (hlow.trans hadv.onward) (hout i (List.mem_cons_self ..)),
        hadv.onward, fun j hj => hout j (List.mem_cons_of_mem _ hj)⟩
  · have hadv := h.advance_directive [chr '?', chr '%', t]
    refine ⟨_, none, hadv.reads, fun l => ?_, fun st hst => nomatch hst⟩
    rw [← hbyte'] at ht hmem hn
    rw [printfRound_other hbyte ht hmem hn, haddr, ← hbyte', haddr]
    simp

/-- `printf` reads the format up to its NUL only, also where a `%` is left over: it returns there.
By induction on its rounds. -/
theorem printf_reads (fuel : ℕ) : ∀ {m : Memory} {s : List UInt8} {a i n : ℕ}
    {l : List PrintEvent}, Rest m a hi s → lo ≤ a → StoresOutside args lo hi s i →
    ReadsWithin lo hi l → ReadsWithin lo hi (printf args fuel ⟨m, a, i, n⟩ l).1 := by
  induction fuel with
  | zero =>
    intro m s a i n l _ _ _ hl
    exact hl
  | succ fuel ih =>
    intro m s a i n l h hlow hout hl
    rcases format_cases s i with rfl | rfl | ⟨s', i', hstep⟩ | ⟨t, s', rfl, ht, hmem⟩
    · have hstop : a = hi := h.stop
      rw [printf_end (printfRound_end (hstop ▸ h.end_zero))]
      exact hl.read hlow hstop.le
    · have haddr : u32 (a + 1) = hi := h.next.1.trans h.next.2.stop
      have hzero : m (u32 (a + 1)) = 0 := haddr ▸ h.end_zero
      rw [printf_end (printfRound_lone h.byte.1 hzero), haddr]
      have hle : a ≤ hi := h.stop ▸ Nat.le_add_right _ _
      exact ((hl.read hlow hle).read (hlow.trans hle) (le_refl hi)).puts [chr '?', chr '%', 0]
    · obtain ⟨a', events, hadv, -, huser⟩ := h.shared_round hstep args
      obtain ⟨n', hround⟩ := huser n
      rw [printf_next (hround l)]
      unfold StoresOutside at hout
      rw [hstep.storeArgs_eq] at hout
      exact ih hadv.rest (hlow.trans hadv.onward) hout (hl.append (hadv.reads.mono hlow))
    · obtain ⟨events, next, hreads, hround, hgo⟩ := h.other_user_round ht hmem hlow hout
      cases next with
      | none =>
        rw [printf_end (hround l)]
        exact hl.append (hreads.mono hlow)
      | some st =>
        obtain ⟨hrest, honward, hout'⟩ := hgo st rfl
        rw [printf_next (hround l)]
        exact ih hrest (hlow.trans honward) hout' (hl.append (hreads.mono hlow))

end Runs

/-- The two interpreters read a format up to its NUL only, and write the same for a format of the
directives that both support, if and only if the number of percent signs at the end of the format
is even. `printf` keeps to the format anyway. -/
theorem format_reads_iff {m : Memory} {fmt : ℕ} {str : List UInt8} (h : IsCString m fmt str)
    (hproper : (0 : UInt8) ∉ str) (hstart : 0 < fmt) (hfits : fmt + str.length < 4294967296)
    (args : ℕ → ℕ) (hout : StoresOutside args fmt (fmt + str.length) str 0) :
    ((∀ fuel, ReadsWithin fmt (fmt + str.length) (vkprintf m args fuel fmt 0 []).1 ∧
        ReadsWithin fmt (fmt + str.length) (printf args fuel ⟨m, fmt, 0, 0⟩ []).1) ∧
      (CommonFormat str → ∀ fuel > str.length,
        (vkprintf m args fuel fmt 0 []).2 = .ok () ∧
        (printf args fuel ⟨m, fmt, 0, 0⟩ []).2 = .ok () ∧
        emitted (vkprintf m args fuel fmt 0 []).1 =
          emitted (printf args fuel ⟨m, fmt, 0, 0⟩ []).1)) ↔
      percentsAtEnd str % 2 = 0 := by
  have hrest : Rest m fmt (fmt + str.length) str := ⟨h, hproper, rfl, hfits⟩
  have hnil : ReadsWithin fmt (fmt + str.length) [] := fun _ hmem => absurd hmem List.not_mem_nil
  constructor
  · rintro ⟨hreads, -⟩
    by_contra hodd
    have hlone : endsLone str = true := (endsLone_iff str).mpr (by omega)
    obtain ⟨fuel, hread⟩ := vkprintf_overruns args (i := 0) hrest hlone
    obtain ⟨hlow, hhigh⟩ := (hreads fuel).1 _ (hread [])
    unfold u32 at hlow hhigh
    omega
  · intro heven
    have hlone : endsLone str = false := by
      rw [← Bool.not_eq_true, endsLone_iff]
      omega
    refine ⟨fun fuel => ⟨vkprintf_reads fuel hrest hlone (le_refl _) hnil,
      printf_reads fuel hrest (le_refl _) hout hnil⟩, fun hcommon fuel hfuel => ?_⟩
    rw [printf_eq_vkprintf args fuel hrest hcommon]
    have hends := vkprintf_ends args fuel hrest hcommon (l := []) (i := 0) hfuel
    exact ⟨hends, hends, rfl⟩

/-- The memory of a format `d=%d%%`. -/
def formatMemory : Memory := fun a =>
  (ascii ['d', '=', '%', 'd', '%', '%']).getD (a - 64) 0

theorem format_reads_decimal : IsCString formatMemory 64 (ascii ['d', '=', '%', 'd', '%', '%']) ∧
    (∀ fuel, ReadsWithin 64 70 (vkprintf formatMemory (fun _ => 7) fuel 64 0 []).1) ∧
    emitted (vkprintf formatMemory (fun _ => 7) 7 64 0 []).1 =
      emitted (printf (fun _ => 7) 7 ⟨formatMemory, 64, 0, 0⟩ []).1 := by
  have hstring : IsCString formatMemory 64 (ascii ['d', '=', '%', 'd', '%', '%']) :=
    ⟨by unfold Memory.Stored; decide, rfl⟩
  obtain ⟨hreads, hsame⟩ := (format_reads_iff hstring (by decide) (by decide) (by decide)
    (fun _ => 7) (by unfold StoresOutside; decide)).mpr (by decide)
  exact ⟨hstring, fun fuel => (hreads fuel).1, (hsame (by decide) 7 (by decide)).2.2⟩

/-- The memory of a format that is one percent sign. -/
def percentMemory : Memory := fun a => if a = 64 then chr '%' else 0

/-- `vkprintf` reads behind the NUL of the format `%`. -/
theorem vkprintf_lone_percent : ¬∀ (m : Memory) (fmt : ℕ) (str : List UInt8) (args : ℕ → ℕ),
    IsCString m fmt str → (0 : UInt8) ∉ str → 0 < fmt → fmt + str.length < 4294967296 →
    StoresOutside args fmt (fmt + str.length) str 0 →
    ∀ fuel, ReadsWithin fmt (fmt + str.length) (vkprintf m args fuel fmt 0 []).1 := by
  intro hall
  have hreads := hall percentMemory 64 [chr '%'] (fun _ => 0)
    ⟨by unfold Memory.Stored; decide, rfl⟩ (by decide) (by decide) (by decide)
    (by unfold StoresOutside; decide) 2
  have hmem : .read 66 ∈ (vkprintf percentMemory (fun _ => 0) 2 64 0 []).1 := by decide
  exact absurd (hreads 66 hmem).2 (by decide)

end Leg

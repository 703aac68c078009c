import Leg.Libc.Printf

/-! The rounds of the loops of `vkprintf` and `printf`: what each reads and writes. -/
namespace Leg
open Logged Memory

/-- The directives that both interpreters support and that take an argument. -/
def converting : List UInt8 := ascii ['s', 'c', 'd', 'i', 'u', 'x', 'o', 'b', 't', 'p']

/-- An action that writes a text, and nothing else. -/
def Prints {α : Type} (act : Logged PrintEvent α) (text : List UInt8) (a : α) : Prop :=
  ∀ l, act l = (l ++ text.map .put, .ok a)

section Conversions
variable {m : Memory} {t : UInt8} {w : ℕ}

theorem cstrWithin_isSome (m : Memory) (n : ℕ) : ∀ a, (∃ k < n, m (u32 (a + k)) = 0) →
    ∃ text, cstrWithin m.readable n a = some text := by
  induction n with
  | zero =>
    rintro a ⟨k, hk, -⟩
    exact absurd hk (Nat.not_lt_zero k)
  | succ n ih =>
    rintro a ⟨k, hk, hzero⟩
    rw [cstrWithin]
    by_cases hb : m (u32 a) = 0
    · exact ⟨[], by simp [Memory.readable, hb]⟩
    · cases k with
      | zero => exact absurd hzero hb
      | succ k =>
        obtain ⟨text, htext⟩ := ih (a + 1) ⟨k, Nat.lt_of_succ_lt_succ hk, by
          rwa [Nat.add_assoc, Nat.add_comm 1]⟩
        exact ⟨m (u32 a) :: text, by simp [Memory.readable, hb, htext]⟩

theorem cstr_isSome {z : ℕ} (hz : z < 4294967296) (hzero : m z = 0) (p : ℕ) :
    ∃ text, cstr m.readable p = some text := by
  refine cstrWithin_isSome m _ p ⟨u32 (z + (4294967296 - u32 p)), u32_lt _, ?_⟩
  have hback : u32 (p + u32 (z + (4294967296 - u32 p))) = z := by
    unfold u32
    omega
  rw [hback, hzero]

theorem putAll_prints (text : List UInt8) : Prints (putAll text) text text.length := fun _ => rfl

theorem printString_prints {z : ℕ} (hz : z < 4294967296) (hzero : m z = 0) (p : ℕ) :
    ∃ text, Prints (printString m p) text text.length := by
  obtain ⟨text, htext⟩ := cstr_isSome hz hzero p
  refine ⟨text, fun l => ?_⟩
  rw [printString, htext]
  rfl

theorem printArray_prints {array : Option (Memory × ℕ)} {m' : Memory} {p z : ℕ}
    (h : array = some (m', p)) (hz : z < 4294967296) (hzero : m' z = 0) :
    ∃ text, Prints (printArray array) text text.length := by
  obtain ⟨text, htext⟩ := printString_prints hz hzero 0
  refine ⟨text, fun l => ?_⟩
  rw [printArray, h]
  exact htext l

theorem printInt_prints (w : ℕ) : ∃ text, Prints (printInt w) text text.length := by
  have hmin : -2147483648 ≤ intOfWord w := @Int.le_bmod w 4294967296 (by decide)
  have hmax : intOfWord w < 2147483648 := @Int.bmod_lt w 4294967296 (by decide)
  have hlen := signedText_ten_length hmin hmax
  obtain ⟨m', p, hrun, hwrote⟩ := @itoa_eq 10 (intOfWord w) (by decide) 32 0 (fun _ => 0)
    (le_refl _) hmin hmax (by omega)
  exact printArray_prints hrun (by omega) hwrote.written.2

theorem printBase_prints {base : ℕ} (hbase : 1 < base) (hw : w < 4294967296) :
    ∃ text, Prints (printBase w base) text text.length := by
  have hlen := @numeralText_length base w hbase
  have hlog := log_lt_32 hbase hw
  obtain ⟨m', hrun, hwrote⟩ := @utoa_eq base w hbase 32 0 (fun _ => 0) (le_refl _) hw (by omega)
  exact printArray_prints hrun (by omega) hwrote.written.2

theorem printPtr_prints (w : ℕ) : ∃ text, Prints (printPtr w) text text.length :=
  printArray_prints rfl (by decide : 9 < 4294967296) rfl

theorem kConvert_eq (m : Memory) (t : UInt8) (w : ℕ) :
    kConvert m t w = (convert m t w).map fun act => act >>= fun _ => pure () := by
  unfold kConvert convert
  simp only [apply_ite (Option.map _), Option.map_some, Option.map_none]
  rfl

theorem mem_converting : t ∈ converting ↔ t = chr 's' ∨ t = chr 'c' ∨ (t = chr 'd' ∨ t = chr 'i') ∨
    t = chr 'u' ∨ t = chr 'x' ∨ t = chr 'o' ∨ t = chr 'b' ∨ t = chr 't' ∨ t = chr 'p' := by
  rw [or_assoc, show converting = [chr 's', chr 'c', chr 'd', chr 'i', chr 'u', chr 'x', chr 'o',
    chr 'b', chr 't', chr 'p'] from rfl]
  simp only [List.mem_cons, List.not_mem_nil, or_false]

theorem ite_some_eq_none {α : Type} {c : Prop} [Decidable c] {a : α} {o : Option α} :
    (if c then some a else o) = none ↔ ¬c ∧ o = none := by
  split
  next h => exact iff_of_false (fun hno => nomatch hno) fun hno => hno.1 h
  next h => exact (and_iff_right h).symm

theorem convert_eq_none : convert m t w = none ↔ t ∉ converting := by
  unfold convert
  simp only [mem_converting, not_or, ite_some_eq_none, and_true]

theorem prints_of_ite {c : Prop} [Decidable c] {act act' : Logged PrintEvent ℕ}
    {o : Option (Logged PrintEvent ℕ)} (h : (if c then some act else o) = some act')
    (hact : ∃ text, Prints act text text.length)
    (hrest : o = some act' → ∃ text, Prints act' text text.length) :
    ∃ text, Prints act' text text.length := by
  by_cases hc : c
  · rw [if_pos hc] at h
    exact Option.some.inj h ▸ hact
  · rw [if_neg hc] at h
    exact hrest h

theorem convert_prints {z : ℕ} (hz : z < 4294967296) (hzero : m z = 0) (hw : w < 4294967296)
    {act : Logged PrintEvent ℕ} (h : convert m t w = some act) :
    ∃ text, Prints act text text.length := by
  unfold convert at h
  refine prints_of_ite h (printString_prints hz hzero w) fun h => ?_
  refine prints_of_ite h ⟨[UInt8.ofNat w], fun _ => rfl⟩ fun h => ?_
  refine prints_of_ite h (printInt_prints w) fun h => ?_
  refine prints_of_ite h (printBase_prints (by decide) hw) fun h => ?_
  refine prints_of_ite h (printBase_prints (by decide) hw) fun h => ?_
  refine prints_of_ite h (printBase_prints (by decide) hw) fun h => ?_
  refine prints_of_ite h (printBase_prints (by decide) hw) fun h => ?_
  refine prints_of_ite h ⟨_, putAll_prints _⟩ fun h => ?_
  exact prints_of_ite h (printPtr_prints w) fun h => nomatch h

end Conversions

theorem Prints.bind {α β : Type} {act : Logged PrintEvent α} {text : List UInt8} {a : α}
    (h : Prints act text a) (f : α → Logged PrintEvent β) (l : List PrintEvent) :
    (act >>= f) l = f a (l ++ text.map .put) := bind_ok (h l)

section Rounds
variable {m : Memory} {args : ℕ → ℕ} {fmt i n : ℕ} {l : List PrintEvent} {text : List UInt8}

theorem vkprintfRound_end (h : m fmt = 0) :
    vkprintfRound m args fmt i l = (l ++ [PrintEvent.read fmt], .ok none) := by
  rw [vkprintfRound, emit_bind]
  dsimp only
  rw [if_pos h]
  rfl

theorem vkprintfRound_char (hzero : m fmt ≠ 0) (hne : m fmt ≠ chr '%') :
    vkprintfRound m args fmt i l =
      (l ++ [PrintEvent.read fmt] ++ [PrintEvent.put (m fmt)], .ok (some (u32 (fmt + 1), i))) := by
  rw [vkprintfRound, emit_bind]
  dsimp only
  rw [if_neg hzero, if_pos hne]
  rfl

section Directive
variable (h : m fmt = chr '%')
include h

theorem vkprintfRound_percent (ht : m (u32 (fmt + 1)) = chr '%') :
    vkprintfRound m args fmt i l = (l ++ [PrintEvent.read fmt] ++
        [PrintEvent.read (u32 (fmt + 1))] ++ [PrintEvent.put (chr '%')],
      .ok (some (u32 (u32 (fmt + 1) + 1), i))) := by
  rw [vkprintfRound, emit_bind]
  dsimp only
  rw [if_neg (by rw [h]; decide), if_neg (not_not.mpr h), emit_bind, if_pos ht]
  rfl

theorem vkprintfRound_convert (ht : m (u32 (fmt + 1)) ≠ chr '%') {act : Logged PrintEvent ℕ}
    (hact : convert m (m (u32 (fmt + 1))) (u32 (args i)) = some act)
    (hprints : Prints act text n) :
    vkprintfRound m args fmt i l =
      (l ++ [PrintEvent.read fmt] ++ [PrintEvent.read (u32 (fmt + 1))] ++ text.map .put,
        .ok (some (u32 (u32 (fmt + 1) + 1), i + 1))) := by
  have hk : Prints (act >>= fun _ => pure ()) text () := fun l => hprints.bind _ l
  rw [vkprintfRound, emit_bind]
  dsimp only
  rw [if_neg (by rw [h]; decide), if_neg (not_not.mpr h), emit_bind, if_neg ht, kConvert_eq, hact]
  exact hk.bind _ _

theorem vkprintfRound_other (ht : m (u32 (fmt + 1)) ≠ chr '%')
    (hnone : m (u32 (fmt + 1)) ∉ converting) :
    vkprintfRound m args fmt i l = (l ++ [PrintEvent.read fmt] ++
        [PrintEvent.read (u32 (fmt + 1))] ++ [PrintEvent.put (chr '?'), PrintEvent.put (chr '%')] ++
        [PrintEvent.read (u32 (fmt + 1))] ++ [PrintEvent.put (m (u32 (fmt + 1)))],
      .ok (some (u32 (u32 (fmt + 1) + 1), i))) := by
  rw [vkprintfRound, emit_bind]
  dsimp only
  rw [if_neg (by rw [h]; decide), if_neg (not_not.mpr h), emit_bind, if_neg ht, kConvert_eq,
    convert_eq_none.mpr hnone]
  rfl

end Directive

section User
variable {s : PrintState}

theorem printfRound_end (h : s.mem s.fmt = 0) :
    printfRound args s l = (l ++ [PrintEvent.read s.fmt], .ok none) := by
  rw [printfRound, emit_bind]
  dsimp only
  rw [if_pos h]
  rfl

theorem printfRound_char (hzero : s.mem s.fmt ≠ 0) (hne : s.mem s.fmt ≠ chr '%') :
    printfRound args s l = (l ++ [PrintEvent.read s.fmt] ++ [PrintEvent.put (s.mem s.fmt)],
      .ok (some ⟨s.mem, u32 (s.fmt + 1), s.next, u32 (s.count + 1)⟩)) := by
  rw [printfRound, emit_bind]
  dsimp only
  rw [if_neg hzero, if_pos hne]
  rfl

section Directive
variable (h : s.mem s.fmt = chr '%')
include h

theorem printfRound_percent (ht : s.mem (u32 (s.fmt + 1)) = chr '%') :
    printfRound args s l =
      (l ++ [PrintEvent.read s.fmt] ++ [PrintEvent.read (u32 (s.fmt + 1))] ++
          [PrintEvent.put (chr '%')],
        .ok (some ⟨s.mem, u32 (u32 (s.fmt + 1) + 1), s.next, u32 (s.count + 1)⟩)) := by
  rw [printfRound, emit_bind]
  dsimp only
  rw [if_neg (by rw [h]; decide), if_neg (not_not.mpr h), emit_bind, if_pos ht]
  rfl

theorem printfRound_convert (ht : s.mem (u32 (s.fmt + 1)) ≠ chr '%')
    {act : Logged PrintEvent ℕ}
    (hact : convert s.mem (s.mem (u32 (s.fmt + 1))) (u32 (args s.next)) = some act)
    (hprints : Prints act text n) :
    printfRound args s l =
      (l ++ [PrintEvent.read s.fmt] ++ [PrintEvent.read (u32 (s.fmt + 1))] ++ text.map .put,
        .ok (some ⟨s.mem, u32 (u32 (s.fmt + 1) + 1), s.next + 1, u32 (s.count + n)⟩)) := by
  rw [printfRound, emit_bind]
  dsimp only
  rw [if_neg (by rw [h]; decide), if_neg (not_not.mpr h), emit_bind, if_neg ht, hact]
  exact hprints.bind _ _

theorem printfRound_store (ht : s.mem (u32 (s.fmt + 1)) = chr 'n') :
    printfRound args s l = (l ++ [PrintEvent.read s.fmt] ++ [PrintEvent.read (u32 (s.fmt + 1))],
      .ok (some ⟨storeCount s.mem (u32 (args s.next)) s.count, u32 (u32 (s.fmt + 1) + 1),
        s.next + 1, s.count⟩)) := by
  have hnone : convert s.mem (s.mem (u32 (s.fmt + 1))) (u32 (args s.next)) = none :=
    convert_eq_none.mpr (by rw [ht]; decide)
  rw [printfRound, emit_bind]
  dsimp only
  rw [if_neg (by rw [h]; decide), if_neg (not_not.mpr h), emit_bind,
    if_neg (by rw [ht]; decide), hnone]
  dsimp only
  rw [if_pos ht]
  rfl

theorem printfRound_other (ht : s.mem (u32 (s.fmt + 1)) ≠ chr '%')
    (hnone : s.mem (u32 (s.fmt + 1)) ∉ converting) (hn : s.mem (u32 (s.fmt + 1)) ≠ chr 'n') :
    printfRound args s l = (l ++ [PrintEvent.read s.fmt] ++ [PrintEvent.read (u32 (s.fmt + 1))] ++
      [PrintEvent.put (chr '?'), PrintEvent.put (chr '%')] ++
      [PrintEvent.put (s.mem (u32 (s.fmt + 1)))], .ok none) := by
  rw [printfRound, emit_bind]
  dsimp only
  rw [if_neg (by rw [h]; decide), if_neg (not_not.mpr h), emit_bind, if_neg ht,
    convert_eq_none.mpr hnone]
  dsimp only
  rw [if_neg hn]
  rfl

theorem printfRound_lone (hzero : s.mem (u32 (s.fmt + 1)) = 0) :
    printfRound args s l = (l ++ [PrintEvent.read s.fmt] ++ [PrintEvent.read (u32 (s.fmt + 1))] ++
      [PrintEvent.put (chr '?'), PrintEvent.put (chr '%'), PrintEvent.put 0], .ok none) := by
  have hround := @printfRound_other args l s h (by rw [hzero]; decide)
    (by rw [hzero]; decide) (by rw [hzero]; decide)
  rw [hzero] at hround
  rw [hround]
  simp

end Directive

end User

end Rounds

end Leg

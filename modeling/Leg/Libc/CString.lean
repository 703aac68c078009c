import Leg.Lib.StoredBytes
import Leg.Word

/-! Reading big-endian words and NUL-terminated strings, as `bswap.h` and `cstring.c` do, from a
memory of which only some bytes may be read. -/
namespace Leg

/-- The characters of a literal. -/
def ascii (cs : List Char) : List UInt8 := cs.map fun c => UInt8.ofNat c.toNat

/-- A memory of which only some bytes may be read; reading any other one fails. -/
abbrev Readable := ℕ → Option UInt8

/-- What is left of a memory when only the `n` bytes from `a` on may be read. -/
def Readable.within (m : Readable) (a n : ℕ) : Readable :=
  fun b => if wsub b a < n then m b else none

def be32Read (m : Readable) (p : ℕ) : Option ℕ := do
  let b0 ← m (u32 p)
  let b1 ← m (u32 (p + 1))
  let b2 ← m (u32 (p + 2))
  let b3 ← m (u32 (p + 3))
  return b0.toNat * 16777216 + b1.toNat * 65536 + b2.toNat * 256 + b3.toNat

/-- `strcmp(a, s) == 0`, where `s` is a string without its terminator. -/
def strcmpEq (m : Readable) (a : ℕ) : List UInt8 → Option Bool
  | [] => (m (u32 a)).map fun b => b == 0
  | c :: cs => do
    let b ← m (u32 a)
    if b = c then strcmpEq m (a + 1) cs else return false

/-- `strncmp(a, s, strlen(s)) == 0`. -/
def startsWith (m : Readable) (a : ℕ) : List UInt8 → Option Bool
  | [] => some true
  | c :: cs => do
    let b ← m (u32 a)
    if b = c then startsWith m (a + 1) cs else return false

/-- The string at `a` up to its terminator, which has to come within `n` bytes. -/
def cstrWithin (m : Readable) : (n a : ℕ) → Option (List UInt8)
  | 0, _ => none
  | n + 1, a => do
    let b ← m (u32 a)
    if b = 0 then return [] else return b :: (← cstrWithin m n (a + 1))

/-- The string at `a`. -/
def cstr (m : Readable) (a : ℕ) : Option (List UInt8) := cstrWithin m 4294967296 a

/-- `strncmp(s, t, n) == 0` for strings without their terminators. -/
def strncmpEq : List UInt8 → List UInt8 → ℕ → Bool
  | _, _, 0 => true
  | [], [], _ => true
  | a :: s, b :: t, n + 1 => a == b && strncmpEq s t n
  | _, _, _ => false

/-- `strcpy` of a string without its terminator into an array; `none` where it writes behind the
end. -/
def strcpy : (dest src : List UInt8) → Option (List UInt8)
  | [], _ => none
  | _ :: dest, [] => some (0 :: dest)
  | _ :: dest, c :: src => (strcpy dest src).map (c :: ·)

theorem strcpy_eq (dest src : List UInt8) : strcpy dest src =
    if src.length < dest.length then some (src ++ 0 :: dest.drop (src.length + 1)) else none := by
  induction dest generalizing src with
  | nil => rfl
  | cons b dest ih =>
    cases src with
    | nil => simp [strcpy]
    | cons c src =>
      rw [strcpy, ih]
      by_cases h : src.length < dest.length
      · simp [h]
      · simp [h]

theorem takeWhile_copy {src : List UInt8} (h : (0 : UInt8) ∉ src) (rest : List UInt8) :
    (src ++ 0 :: rest).takeWhile (fun c => c != 0) = src := by
  rw [List.takeWhile_append_of_pos fun c hc => ?_, List.takeWhile_cons_of_neg (by simp),
    List.append_nil]
  simp only [bne_iff_ne, ne_eq]
  rintro rfl
  exact h hc

theorem strncmpEq_iff (s t : List UInt8) (n : ℕ) :
    strncmpEq s t n = true ↔ s.take n = t.take n := by
  induction n generalizing s t with
  | zero => simp [strncmpEq]
  | succ n ih =>
    cases s with
    | nil => cases t <;> simp [strncmpEq]
    | cons a s =>
      cases t with
      | nil => simp [strncmpEq]
      | cons b t => simp [strncmpEq, ih]

/-- All of a memory may be read. -/
def Memory.readable (m : Memory) : Readable := fun a => some (m a)

/-- `strncmp(a, b, n) == 0`. -/
def strncmpAt (m : Memory) : (n a b : ℕ) → Bool
  | 0, _, _ => true
  | n + 1, a, b =>
    if m (u32 a) ≠ 0 ∧ m (u32 a) = m (u32 b) then strncmpAt m n (a + 1) (b + 1)
    else m (u32 a) == m (u32 b)

namespace Readable
variable {m : Readable} {a : ℕ} {b : UInt8} {l l' s t : List UInt8}

/-- The bytes lie in the address space from `a` on and may be read. -/
def Holds (m : Readable) (a : ℕ) (bytes : List UInt8) : Prop :=
  a + bytes.length ≤ 4294967296 ∧ ∀ (k : ℕ) (h : k < bytes.length), m (a + k) = some bytes[k]

theorem holds_append : m.Holds a (l ++ l') ↔ m.Holds a l ∧ m.Holds (a + l.length) l' := by
  have hlen : (l ++ l').length = l.length + l'.length := List.length_append
  constructor
  · rintro ⟨hfits, h⟩
    refine ⟨⟨by omega, fun k hk => ?_⟩, by omega, fun k hk => ?_⟩
    · rw [h k (by omega), List.getElem_append_left hk]
    · rw [Nat.add_assoc, h (l.length + k) (by omega), List.getElem_append_right (by omega)]
      simp only [Nat.add_sub_cancel_left]
  · rintro ⟨⟨-, h⟩, hfits, h'⟩
    refine ⟨by omega, fun k hk => ?_⟩
    by_cases hl : k < l.length
    · rw [h k hl, List.getElem_append_left hl]
    · have hk' := h' (k - l.length) (by omega)
      rw [Nat.add_assoc, Nat.add_sub_cancel' (Nat.le_of_not_lt hl)] at hk'
      rw [hk', List.getElem_append_right (Nat.le_of_not_lt hl)]

theorem Holds.head (h : m.Holds a (b :: l)) : m (u32 a) = some b := by
  obtain ⟨hfits, hget⟩ := h
  rw [List.length_cons] at hfits
  rw [u32_of_lt (by omega)]
  exact hget 0 (Nat.succ_pos _)

theorem Holds.tail (h : m.Holds a (b :: l)) : m.Holds (a + 1) l := by
  rw [← List.singleton_append] at h
  exact (holds_append.mp h).2

theorem Holds.cstrWithin (h : m.Holds a (s ++ [0])) (hs : (0 : UInt8) ∉ s) {n : ℕ}
    (hn : s.length < n) : cstrWithin m n a = some s := by
  induction s generalizing a n with
  | nil =>
    obtain ⟨k, rfl⟩ := Nat.exists_eq_succ_of_ne_zero (Nat.ne_zero_of_lt hn)
    rw [Leg.cstrWithin, h.head]
    rfl
  | cons c s ih =>
    obtain ⟨k, rfl⟩ := Nat.exists_eq_succ_of_ne_zero (Nat.ne_zero_of_lt hn)
    have hc : ¬c = 0 := fun hzero => hs (hzero ▸ List.mem_cons_self ..)
    have hrest := @ih (a + 1) h.tail (fun hm => hs (List.mem_cons_of_mem _ hm)) k
      (Nat.lt_of_succ_lt_succ hn)
    rw [Leg.cstrWithin, h.head, Option.bind_eq_bind, Option.bind_some, if_neg hc, hrest]
    rfl

/-- Comparing a terminated string with a literal. -/
theorem Holds.strcmpEq (h : m.Holds a (s ++ [0])) (hs : (0 : UInt8) ∉ s) (ht : (0 : UInt8) ∉ t) :
    strcmpEq m a t = some (decide (s = t)) := by
  induction t generalizing a s with
  | nil =>
    cases s with
    | nil =>
      rw [Leg.strcmpEq, h.head]
      rfl
    | cons c s =>
      have hc : ¬c = 0 := fun hzero => hs (hzero ▸ List.mem_cons_self ..)
      rw [Leg.strcmpEq, h.head]
      simp [hc]
  | cons d t ih =>
    have hd : ¬(0 : UInt8) = d := fun hzero => ht (hzero ▸ List.mem_cons_self ..)
    cases s with
    | nil =>
      rw [Leg.strcmpEq, h.head]
      simp [hd]
    | cons c s =>
      have hrest := ih (show m.Holds (a + 1) (s ++ [0]) from h.tail)
        (fun hm => hs (List.mem_cons_of_mem _ hm)) fun hm => ht (List.mem_cons_of_mem _ hm)
      rw [Leg.strcmpEq, h.head, Option.bind_eq_bind, Option.bind_some]
      by_cases hc : c = d
      · rw [if_pos hc, hrest]
        simp [hc]
      · rw [if_neg hc]
        simp [hc]

theorem Holds.startsWith (h : m.Holds a (s ++ [0])) (ht : (0 : UInt8) ∉ t) :
    startsWith m a t = some (t.isPrefixOf s) := by
  induction t generalizing a s with
  | nil => rfl
  | cons d t ih =>
    have hd : ¬(0 : UInt8) = d := fun hzero => ht (hzero ▸ List.mem_cons_self ..)
    cases s with
    | nil =>
      rw [Leg.startsWith, h.head, Option.bind_eq_bind, Option.bind_some, if_neg hd]
      rfl
    | cons c s =>
      have hrest := ih (show m.Holds (a + 1) (s ++ [0]) from h.tail)
        fun hm => ht (List.mem_cons_of_mem _ hm)
      rw [Leg.startsWith, h.head, Option.bind_eq_bind, Option.bind_some, List.isPrefixOf_cons_cons]
      by_cases hc : c = d
      · rw [if_pos hc, hrest, beq_iff_eq.mpr hc.symm, Bool.true_and]
      · rw [if_neg hc, beq_eq_false_iff_ne.mpr (Ne.symm hc), Bool.false_and]
        rfl

theorem Holds.strcmpEq_isSome (h : m.Holds a l) (hl : (0 : UInt8) ∈ l) (ht : (0 : UInt8) ∉ t) :
    ∃ equal, Leg.strcmpEq m a t = some equal := by
  induction t generalizing a l with
  | nil =>
    obtain ⟨c, l, rfl⟩ := List.exists_cons_of_ne_nil (List.ne_nil_of_mem hl)
    rw [Leg.strcmpEq, h.head]
    exact ⟨_, rfl⟩
  | cons d t ih =>
    obtain ⟨c, l, rfl⟩ := List.exists_cons_of_ne_nil (List.ne_nil_of_mem hl)
    rw [Leg.strcmpEq, h.head, Option.bind_eq_bind, Option.bind_some]
    by_cases hc : c = d
    · rw [if_pos hc]
      have hd : (0 : UInt8) ≠ c := fun hzero => ht (hc ▸ hzero ▸ List.mem_cons_self ..)
      exact ih h.tail (List.mem_of_ne_of_mem hd hl) fun hm => ht (List.mem_cons_of_mem _ hm)
    · rw [if_neg hc]
      exact ⟨_, rfl⟩

end Readable

section Strings
variable {m : Memory} {a b : ℕ} {s t : List UInt8}

theorem IsCString.holds (h : IsCString m a s) (hfits : a + s.length < 4294967296) :
    m.readable.Holds a (s ++ [0]) := by
  refine Readable.holds_append.mpr ⟨⟨hfits.le, fun k hk => ?_⟩, ?_, fun k hk => ?_⟩
  · exact congrArg some (h.1 k hk)
  · exact hfits
  · obtain rfl : k = 0 := by simpa using hk
    exact congrArg some h.2

theorem strcmpEq_literal (h : IsCString m a s) (hfits : a + s.length < 4294967296)
    (hs : (0 : UInt8) ∉ s) (ht : (0 : UInt8) ∉ t) :
    strcmpEq m.readable a t = some (decide (s = t)) := (h.holds hfits).strcmpEq hs ht

/-- Comparing two strings in memory. -/
theorem strncmpAt_eq (n : ℕ) (ha : IsCString m a s) (hb : IsCString m b t)
    (hfa : a + s.length < 4294967296) (hfb : b + t.length < 4294967296)
    (hs : (0 : UInt8) ∉ s) (ht : (0 : UInt8) ∉ t) :
    strncmpAt m n a b = strncmpEq s t n := by
  induction n generalizing a b s t with
  | zero => cases s <;> cases t <;> rfl
  | succ n ih =>
    have haddr : u32 a = a := u32_of_lt (by omega)
    have hbddr : u32 b = b := u32_of_lt (by omega)
    rw [strncmpAt, haddr, hbddr]
    cases s with
    | nil =>
      rw [ha.byte_nil, if_neg (by simp)]
      cases t with
      | nil => rw [hb.byte_nil]; rfl
      | cons d t =>
        have hd : ¬(0 : UInt8) = d := fun hzero => ht (hzero ▸ List.mem_cons_self ..)
        rw [hb.byte_cons]
        simpa [strncmpEq] using hd
    | cons c s =>
      have hc : c ≠ 0 := fun hzero => hs (hzero ▸ List.mem_cons_self ..)
      rw [ha.byte_cons]
      cases t with
      | nil =>
        rw [hb.byte_nil, if_neg fun hboth => hc hboth.2]
        simpa [strncmpEq] using hc
      | cons d t =>
        rw [hb.byte_cons, strncmpEq]
        rw [List.length_cons] at hfa hfb
        by_cases hcd : c = d
        · rw [if_pos ⟨hc, hcd⟩, ih ha.next hb.next (by omega) (by omega)
            (fun hm => hs (List.mem_cons_of_mem _ hm)) fun hm => ht (List.mem_cons_of_mem _ hm)]
          simp [hcd]
        · rw [if_neg fun hboth => hcd hboth.2]
          simp [hcd]

end Strings

end Leg

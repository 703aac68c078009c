import Mathlib.Data.List.Basic
import Leg.Lib.ByteMemory

/-! Lists of bytes laid down in a memory one after the other, little-endian numbers among them,
and NUL-terminated strings. -/
namespace Leg.Memory

/-- The bytes lie in the memory from `a` on. -/
def Stored (m : Memory) (a : ℕ) (bytes : List UInt8) : Prop :=
  ∀ (k : ℕ) (h : k < bytes.length), m (a + k) = bytes[k]

/-- The four bytes of a word, low byte first. -/
def le32 (n : ℕ) : List UInt8 :=
  [UInt8.ofNat n, UInt8.ofNat (n / 256), UInt8.ofNat (n / 65536), UInt8.ofNat (n / 16777216)]

/-- The two bytes of a half word, low byte first. -/
def le16 (n : ℕ) : List UInt8 := [UInt8.ofNat n, UInt8.ofNat (n / 256)]

@[simp] theorem le32_length (n : ℕ) : (le32 n).length = 4 := rfl

@[simp] theorem le16_length (n : ℕ) : (le16 n).length = 2 := rfl

variable {m m' : Memory} {a : ℕ}

theorem stored_nil : Stored m a [] := fun _ h => absurd h (Nat.not_lt_zero _)

/-- Two lists one after the other. -/
theorem stored_append {l l' : List UInt8} :
    Stored m a (l ++ l') ↔ Stored m a l ∧ Stored m (a + l.length) l' := by
  constructor
  · intro h
    constructor
    · intro k hk
      rw [h k (by rw [List.length_append]; omega), List.getElem_append_left hk]
    · intro k hk
      rw [Nat.add_assoc, h (l.length + k) (by rw [List.length_append]; omega),
        List.getElem_append_right (by omega)]
      simp only [Nat.add_sub_cancel_left]
  · rintro ⟨h, h'⟩ k hk
    by_cases hl : k < l.length
    · rw [h k hl, List.getElem_append_left hl]
    · rw [List.length_append] at hk
      have hk' := h' (k - l.length) (by omega)
      rw [Nat.add_assoc, Nat.add_sub_cancel' (Nat.le_of_not_lt hl)] at hk'
      rw [hk', List.getElem_append_right (Nat.le_of_not_lt hl)]

theorem stored_cons {b : UInt8} {l : List UInt8} :
    Stored m a (b :: l) ↔ m a = b ∧ Stored m (a + 1) l := by
  rw [← List.singleton_append, stored_append]
  refine and_congr_left fun _ => ⟨fun h => h 0 (by simp), fun h k hk => ?_⟩
  obtain rfl : k = 0 := by simpa using hk
  exact h

theorem Stored.agree {l : List UInt8} (h : Stored m a l) (hag : Agree m m' a (a + l.length)) :
    Stored m' a l := fun k hk => (hag (a + k) (by omega) (by omega)).trans (h k hk)

theorem Stored.congr {a' : ℕ} {l : List UInt8} (h : Stored m a l)
    (heq : ∀ k < l.length, m' (a' + k) = m (a + k)) : Stored m' a' l :=
  fun k hk => (heq k hk).trans (h k hk)

theorem Stored.load {n : ℕ} (h : Stored m a (le32 n)) (hn : n < 4294967296) : m.load a = n := by
  obtain ⟨h0, h⟩ := stored_cons.mp h
  obtain ⟨h1, h⟩ := stored_cons.mp h
  obtain ⟨h2, h⟩ := stored_cons.mp h
  obtain ⟨h3, -⟩ := stored_cons.mp h
  unfold Memory.load
  rw [h0, h1, h2, h3]
  simp only [UInt8.toNat_ofNat']
  omega

theorem Stored.load16 {n : ℕ} (h : Stored m a (le16 n)) (hn : n < 65536) : m.load16 a = n := by
  obtain ⟨h0, h⟩ := stored_cons.mp h
  obtain ⟨h1, -⟩ := stored_cons.mp h
  unfold Memory.load16
  rw [h0, h1]
  simp only [UInt8.toNat_ofNat']
  omega

/-- The piece of one element starts behind those of the elements before it. -/
theorem Stored.piece {α : Type} {f : α → List UInt8} {xs : List α} (h : Stored m a (xs.flatMap f))
    {i : ℕ} {x : α} (hi : xs[i]? = some x) :
    Stored m (a + ((xs.take i).flatMap f).length) (f x) := by
  obtain ⟨hlt, rfl⟩ := List.getElem?_eq_some_iff.mp hi
  have hsplit : xs.flatMap f =
      (xs.take i).flatMap f ++ (f xs[i] ++ (xs.drop (i + 1)).flatMap f) := by
    rw [← List.flatMap_cons, ← List.flatMap_append, List.getElem_cons_drop,
      List.take_append_drop]
  rw [hsplit, stored_append, stored_append] at h
  exact h.2.1

theorem flatMap_take_length {α : Type} {f : α → List UInt8} {w : ℕ} (hw : ∀ x, (f x).length = w)
    (xs : List α) {i : ℕ} (hi : i ≤ xs.length) :
    ((xs.take i).flatMap f).length = w * i := by
  rw [List.length_flatMap, List.map_congr_left fun x _ => hw x, List.map_const',
    List.sum_replicate_nat, List.length_take, Nat.min_eq_left hi, Nat.mul_comm]

/-- A block is put down byte by byte. -/
theorem put_succ (m : Memory) (a n : ℕ) (f : ℕ → UInt8) :
    m.put a (n + 1) f = put (Function.update m a (f 0)) (a + 1) n fun j => f (j + 1) := by
  funext b
  unfold put
  by_cases hb : b = a
  · subst hb
    rw [if_pos (by omega), if_neg (by omega), Function.update_self, Nat.sub_self]
  · rw [Function.update_of_ne hb]
    by_cases hin : a + 1 ≤ b ∧ b < a + 1 + n
    · rw [if_pos (by omega), if_pos hin]
      congr 1
      omega
    · rw [if_neg (by omega), if_neg hin]

theorem put_stored (m : Memory) (a : ℕ) (bytes : List UInt8) :
    (m.put a bytes.length fun j => bytes.getD j 0).Stored a bytes := by
  intro k hk
  rw [put_get m a _ hk]
  exact (List.getElem_eq_getD 0).symm

end Leg.Memory

namespace Leg
open Memory

/-- A string without NUL bytes lies at an address, and a NUL byte behind it. -/
def IsCString (m : Memory) (p : ℕ) (str : List UInt8) : Prop :=
  m.Stored p str ∧ m (p + str.length) = 0

namespace IsCString
variable {m m' : Memory} {p : ℕ} {str front : List UInt8} {c : UInt8}

theorem byte_cons (h : IsCString m p (c :: str)) : m p = c := (stored_cons.mp h.1).1

theorem byte_nil (h : IsCString m p []) : m p = 0 := h.2

theorem tail (h : IsCString m p (front ++ str)) : IsCString m (p + front.length) str := by
  obtain ⟨hstored, hzero⟩ := h
  rw [List.length_append, ← Nat.add_assoc] at hzero
  exact ⟨(stored_append.mp hstored).2, hzero⟩

theorem next (h : IsCString m p (c :: str)) : IsCString m (p + 1) str := by
  rw [← List.singleton_append] at h
  exact h.tail

theorem agree (h : IsCString m p str) (hag : Agree m m' p (p + str.length + 1)) :
    IsCString m' p str :=
  ⟨h.1.agree (hag.mono (le_refl _) (Nat.le_succ _)),
    (hag _ (Nat.le_add_right _ _) (Nat.lt_succ_self _)).trans h.2⟩

end IsCString
end Leg

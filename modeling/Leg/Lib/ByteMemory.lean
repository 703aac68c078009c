import Mathlib.Algebra.Order.Group.Nat
import Mathlib.Logic.Function.Basic
import Mathlib.Tactic.Ring

/-! A byte-addressed memory with little-endian 32-bit words, and what a store leaves alone. -/
namespace Leg

/-- The byte at each address. -/
abbrev Memory := ℕ → UInt8

namespace Memory

/-- The word at `a`, low byte first. -/
def load (m : Memory) (a : ℕ) : ℕ :=
  (m a).toNat + 256 * (m (a + 1)).toNat + 65536 * (m (a + 2)).toNat +
    16777216 * (m (a + 3)).toNat

/-- Store the low 32 bits of `v` at `a`. -/
def store (m : Memory) (a v : ℕ) : Memory := fun b =>
  if b = a then UInt8.ofNat v
  else if b = a + 1 then UInt8.ofNat (v / 256)
  else if b = a + 2 then UInt8.ofNat (v / 65536)
  else if b = a + 3 then UInt8.ofNat (v / 16777216)
  else m b

/-- `n` bytes of value `c` from `a` on. -/
def fill (m : Memory) (a n : ℕ) (c : UInt8) : Memory := fun b =>
  if a ≤ b ∧ b < a + n then c else m b

/-- The half word at `a`, low byte first. -/
def load16 (m : Memory) (a : ℕ) : ℕ := (m a).toNat + 256 * (m (a + 1)).toNat

/-- `n` bytes from `dst` on become what `f` says at their distance from `dst`. -/
def put (m : Memory) (dst n : ℕ) (f : ℕ → UInt8) : Memory := fun b =>
  if dst ≤ b ∧ b < dst + n then f (b - dst) else m b

/-- `memcpy` between ranges that do not overlap. -/
def copy (m : Memory) (dst src n : ℕ) : Memory := m.put dst n fun k => m (src + k)

/-- `n` bytes copied one by one, upward, from `src` to `dst`. -/
def copyUp (m : Memory) (dst src : ℕ) : ℕ → Memory
  | 0 => m
  | n + 1 => Function.update (m.copyUp dst src n) (dst + n) (m.copyUp dst src n (src + n))

/-- The two memories hold the same bytes at `lo`, …, `hi - 1`. -/
def Agree (m n : Memory) (lo hi : ℕ) : Prop := ∀ b, lo ≤ b → b < hi → n b = m b

theorem Agree.refl (m : Memory) (lo hi : ℕ) : Agree m m lo hi := fun _ _ _ => rfl

theorem Agree.trans {m n k : Memory} {lo hi : ℕ} (h : Agree m n lo hi) (h' : Agree n k lo hi) :
    Agree m k lo hi := fun b hl hh => (h' b hl hh).trans (h b hl hh)

theorem Agree.mono {m n : Memory} {lo hi lo' hi' : ℕ} (h : Agree m n lo hi) (hl : lo ≤ lo')
    (hh : hi' ≤ hi) : Agree m n lo' hi' := fun b h1 h2 => h b (by omega) (by omega)

theorem load_lt (m : Memory) (a : ℕ) : m.load a < 4294967296 := by
  have h0 := (m a).toNat_lt
  have h1 := (m (a + 1)).toNat_lt
  have h2 := (m (a + 2)).toNat_lt
  have h3 := (m (a + 3)).toNat_lt
  unfold load
  omega

theorem Agree.load {m n : Memory} {lo hi a : ℕ} (h : Agree m n lo hi) (hl : lo ≤ a)
    (hh : a + 4 ≤ hi) : n.load a = m.load a := by
  unfold Memory.load
  rw [h a (by omega) (by omega), h (a + 1) (by omega) (by omega),
    h (a + 2) (by omega) (by omega), h (a + 3) (by omega) (by omega)]

theorem store_agree (m : Memory) (a v : ℕ) {lo hi : ℕ} (h : hi ≤ a ∨ a + 4 ≤ lo) :
    Agree m (m.store a v) lo hi := by
  intro b hl hh
  have h0 : b ≠ a := by omega
  have h1 : b ≠ a + 1 := by omega
  have h2 : b ≠ a + 2 := by omega
  have h3 : b ≠ a + 3 := by omega
  simp only [store, h0, h1, h2, h3, if_false]

theorem fill_agree (m : Memory) (a n : ℕ) (c : UInt8) {lo hi : ℕ} (h : hi ≤ a ∨ a + n ≤ lo) :
    Agree m (m.fill a n c) lo hi := by
  intro b hl hh
  have : ¬ (a ≤ b ∧ b < a + n) := by omega
  simp only [fill, this, if_false]

theorem put_agree (m : Memory) (dst n : ℕ) (f : ℕ → UInt8) {lo hi : ℕ}
    (h : hi ≤ dst ∨ dst + n ≤ lo) : Agree m (m.put dst n f) lo hi := by
  intro b hl hh
  have : ¬ (dst ≤ b ∧ b < dst + n) := by omega
  simp only [put, this, if_false]

theorem put_get (m : Memory) (dst : ℕ) (f : ℕ → UInt8) {n k : ℕ} (h : k < n) :
    m.put dst n f (dst + k) = f k := by
  have : dst ≤ dst + k ∧ dst + k < dst + n := by omega
  simp only [put, this, and_self, if_true, Nat.add_sub_cancel_left]

theorem copyUp_agree (m : Memory) (dst src : ℕ) {n lo hi : ℕ} (h : hi ≤ dst ∨ dst + n ≤ lo) :
    Agree m (m.copyUp dst src n) lo hi := by
  induction n with
  | zero => exact .refl _ _ _
  | succ n ih =>
    intro b hl hh
    rw [copyUp, Function.update_of_ne (by omega)]
    exact ih (by omega) b hl hh

/-- A byte of the source that lies outside the destination arrives as it was. -/
theorem copyUp_get (m : Memory) {dst src n k : ℕ} (hk : k < n)
    (h : src + k < dst ∨ dst + n ≤ src + k) : m.copyUp dst src n (dst + k) = m (src + k) := by
  induction n with
  | zero => exact absurd hk (Nat.not_lt_zero k)
  | succ n ih =>
    rw [copyUp]
    by_cases hkn : k = n
    · subst hkn
      rw [Function.update_self]
      have hout : src + k + 1 ≤ dst ∨ dst + k ≤ src + k := by omega
      exact copyUp_agree m dst src hout _ (le_refl _) (by omega)
    · rw [Function.update_of_ne (by omega)]
      exact ih (by omega) (by omega)

theorem load_store_self (m : Memory) (a : ℕ) {v : ℕ} (h : v < 4294967296) :
    (m.store a v).load a = v := by
  have e1 : a + 1 ≠ a := by omega
  have e2 : a + 2 ≠ a := by omega
  have e3 : a + 3 ≠ a := by omega
  have e4 : a + 2 ≠ a + 1 := by omega
  have e5 : a + 3 ≠ a + 1 := by omega
  have e6 : a + 3 ≠ a + 2 := by omega
  simp only [load, store, e1, e2, e3, e4, e5, e6, if_true, if_false, UInt8.toNat_ofNat']
  omega

theorem load_store_of_disjoint (m : Memory) {a b : ℕ} (v : ℕ) (h : b + 4 ≤ a ∨ a + 4 ≤ b) :
    (m.store a v).load b = m.load b :=
  (show Agree m (m.store a v) b (b + 4) from store_agree m a v h).load (le_refl b) (le_refl _)

end Memory

end Leg

import Leg.Word

/-! The parts of a legacy virtqueue that `virtio.h` declares. -/
namespace Leg

/-- Wrap to 16 bits. -/
def u16 (n : ℕ) : ℕ := n % 65536

def queueSize : ℕ := 16

def vdescFNext : ℕ := 1

def vdescFWrite : ℕ := 2

theorem u16_of_lt {n : ℕ} (h : n < 65536) : u16 n = n := Nat.mod_eq_of_lt h

theorem u16_succ (n : ℕ) : u16 (u16 n + 1) = u16 (n + 1) := by
  unfold u16
  omega

theorem u16_add_mod (n k : ℕ) : (u16 n + k) % queueSize = (n + k) % queueSize := by
  unfold u16 queueSize
  omega

/-- `vq_desc_t`. -/
structure VqDesc where
  addr : ℕ
  len : ℕ
  flags : ℕ
  next : ℕ
  deriving DecidableEq

/-- `vq_used_elem_t`. -/
structure VqUsedElem where
  id : ℕ
  len : ℕ

end Leg

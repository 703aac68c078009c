import Leg.Lib.StoredBytes
import Leg.Word

/-! `memmove` of `builtins.c`: the two copy loops, each in the direction in which it reads every
byte before it overwrites it. -/
namespace Leg.Memory

/-- The loop of `memcpy`, upward. -/
def memcpyLoop (m : Memory) : (len dp8 sp8 : ℕ) → Memory
  | 0, _, _ => m
  | len + 1, dp8, sp8 =>
    memcpyLoop (Function.update m dp8 (m sp8)) len (u32 (dp8 + 1)) (u32 (sp8 + 1))

/-- `memcpy`: the memory behind it, and what it returns. -/
def memcpy (m : Memory) (dst src len : ℕ) : Memory × ℕ :=
  if dst = src then (m, 0) else (memcpyLoop m len dst src, dst)

/-- `p - 1` for a byte pointer. -/
def ptrPred (p : ℕ) : ℕ := if p = 0 then u32Max else p - 1

/-- The loop of `revcpy`, downward. -/
def revcpyLoop (m : Memory) : (len dp8 sp8 : ℕ) → Memory
  | 0, _, _ => m
  | len + 1, dp8, sp8 =>
    revcpyLoop (Function.update m dp8 (m sp8)) len (ptrPred dp8) (ptrPred sp8)

def revcpy (m : Memory) (dst src len : ℕ) : Memory × ℕ :=
  if dst = src then (m, 0)
  else (revcpyLoop m len (ptrPred (u32 (dst + len))) (ptrPred (u32 (src + len))), dst)

def memmove (m : Memory) (dst src len : ℕ) : Memory × ℕ :=
  if dst < src then m.memcpy dst src len
  else if src < dst then m.revcpy dst src len
  else (m, dst)

variable {m : Memory} {dst src len : ℕ}

theorem copy_zero (m : Memory) (dst src : ℕ) : m.copy dst src 0 = m := by
  funext b
  unfold copy put
  rw [if_neg (by omega)]

theorem memcpyLoop_eq (hlt : dst < src) (hs : src + len ≤ 4294967296) :
    m.memcpyLoop len dst src = m.copy dst src len := by
  induction len generalizing m dst src with
  | zero => rw [memcpyLoop, copy_zero]
  | succ len ih =>
    have hstep : m.copy dst src (len + 1) =
        copy (Function.update m dst (m src)) (dst + 1) (src + 1) len := by
      unfold copy
      rw [put_succ]
      congr 1
      funext k
      rw [Function.update_of_ne (by omega), Nat.add_right_comm, Nat.add_assoc]
    rw [memcpyLoop, hstep]
    by_cases hlen : len = 0
    · rw [hlen, memcpyLoop, copy_zero]
    · rw [u32_of_lt (by omega), u32_of_lt (by omega), ih (by omega) (by omega)]

theorem put_last (m : Memory) (a n : ℕ) (f : ℕ → UInt8) :
    m.put a (n + 1) f = put (Function.update m (a + n) (f n)) a n f := by
  funext b
  unfold put
  by_cases hb : b = a + n
  · subst hb
    rw [if_pos (by omega), if_neg (by omega), Function.update_self, Nat.add_sub_cancel_left]
  · rw [Function.update_of_ne hb]
    by_cases hin : a ≤ b ∧ b < a + n
    · rw [if_pos (by omega), if_pos hin]
    · rw [if_neg (by omega), if_neg hin]

theorem put_congr (m : Memory) (a : ℕ) {n : ℕ} {f g : ℕ → UInt8} (h : ∀ k < n, f k = g k) :
    m.put a n f = m.put a n g := by
  funext b
  unfold put
  by_cases hb : a ≤ b ∧ b < a + n
  · rw [if_pos hb, if_pos hb, h _ (by omega)]
  · rw [if_neg hb, if_neg hb]

/-- Downward: the source bytes still to be read lie below what has been written. The cursors are
on the last bytes. -/
theorem revcpyLoop_eq (hlt : src < dst) (hd : dst + len ≤ 4294967296) {dp8 sp8 : ℕ}
    (hdp : 0 < len → dp8 + 1 = dst + len) (hsp : 0 < len → sp8 + 1 = src + len) :
    m.revcpyLoop len dp8 sp8 = m.copy dst src len := by
  induction len generalizing m dp8 sp8 with
  | zero => rw [revcpyLoop, copy_zero]
  | succ len ih =>
    obtain rfl : dp8 = dst + len := by omega
    obtain rfl : sp8 = src + len := by omega
    have hstep : m.copy dst src (len + 1) =
        copy (Function.update m (dst + len) (m (src + len))) dst src len := by
      unfold copy
      rw [put_last]
      apply put_congr
      intro k hk
      have hne : src + k ≠ dst + len := by omega
      rw [Function.update_of_ne hne]
    rw [revcpyLoop, hstep]
    apply ih (by omega)
    · intro hpos
      rw [ptrPred, if_neg (by omega)]
      omega
    · intro hpos
      rw [ptrPred, if_neg (by omega)]
      omega

/-- `memmove` is the copy of the bytes as they were, and returns its destination. -/
theorem memmove_eq (hd : dst + len ≤ 4294967296) (hs : src + len ≤ 4294967296) :
    m.memmove dst src len = (m.copy dst src len, dst) := by
  unfold memmove
  split
  next hlt => rw [memcpy, if_neg (by omega), memcpyLoop_eq hlt hs]
  next =>
    split
    next hlt =>
      have hlast (a : ℕ) (ha : a + len ≤ 4294967296) (hpos : 0 < len) :
          ptrPred (u32 (a + len)) + 1 = a + len := by
        unfold ptrPred u32Max u32
        split <;> omega
      rw [revcpy, if_neg (by omega), revcpyLoop_eq hlt hd (hlast dst hd) (hlast src hs)]
    next =>
      obtain rfl : dst = src := by omega
      have hsame : m.copy dst dst len = m := by
        funext b
        unfold copy put
        split
        · dsimp only
          rw [Nat.add_sub_cancel' (by omega)]
        · rfl
      rw [hsame]

/-- Whatever the overlap, the bytes at the destination are those that were at the source, every
other byte is as it was, and the destination is returned. -/
theorem memmove_moves (m : Memory) (hd : dst + len ≤ 4294967296) (hs : src + len ≤ 4294967296) :
    (∀ k < len, (m.memmove dst src len).1 (dst + k) = m (src + k)) ∧
      (∀ a, a < dst ∨ dst + len ≤ a → (m.memmove dst src len).1 a = m a) ∧
      (m.memmove dst src len).2 = dst := by
  rw [memmove_eq hd hs]
  refine ⟨fun k hk => put_get m dst (fun j => m (src + j)) hk, fun a ha => ?_, rfl⟩
  unfold copy put
  dsimp only
  rw [if_neg (by omega)]

/-- Every byte holds its address. -/
def numbered : Memory := fun a => UInt8.ofNat a

/-- Three bytes moved up by one. -/
theorem memmove_moves_up :
    (∀ k < 3, (numbered.memmove 101 100 3).1 (101 + k) = UInt8.ofNat (100 + k)) ∧
      (numbered.memmove 101 100 3).2 = 101 := by
  obtain ⟨hmoved, -, hdst⟩ := @memmove_moves 101 100 3 numbered (by decide)
    (by decide)
  exact ⟨hmoved, hdst⟩

end Leg.Memory

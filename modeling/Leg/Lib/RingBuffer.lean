import Mathlib.Data.List.Basic
import Mathlib.Data.Nat.ModEq
import Mathlib.Logic.Function.Basic

/-! A list kept in consecutive cells of a ring. The ring is a function of the cell number; only
the cells below its size belong to it. -/
namespace Leg.RingBuffer

variable {α : Type*} {size : ℕ} {cell : ℕ → α} {start : ℕ} {xs : List α}

/-- The cells from `start` on, around the ring, hold `xs`. -/
structure Holds (size : ℕ) (cell : ℕ → α) (start : ℕ) (xs : List α) : Prop where
  length : xs.length ≤ size
  get : ∀ k (hk : k < xs.length), cell ((start + k) % size) = xs[k]

theorem Holds.nil : Holds size cell start [] :=
  ⟨Nat.zero_le _, fun _ hk => absurd hk (Nat.not_lt_zero _)⟩

theorem Holds.congr {start' : ℕ} (h : Holds size cell start xs)
    (hs : start' % size = start % size) : Holds size cell start' xs :=
  ⟨h.length, fun k hk => by rw [Nat.add_mod, hs, ← Nat.add_mod, h.get k hk]⟩

theorem cell_injective {j k : ℕ} (hj : j < size) (hk : k < size)
    (h : (start + j) % size = (start + k) % size) : j = k := by
  have hmod : j % size = k % size := Nat.ModEq.add_left_cancel (Nat.ModEq.refl start) h
  rwa [Nat.mod_eq_of_lt hj, Nat.mod_eq_of_lt hk] at hmod

theorem Holds.push (h : Holds size cell start xs) (hlen : xs.length < size) (x : α) :
    Holds size (Function.update cell ((start + xs.length) % size) x) start (xs ++ [x]) := by
  refine ⟨by simpa using Nat.succ_le_of_lt hlen, fun k hk => ?_⟩
  rw [List.length_append, List.length_singleton] at hk
  by_cases hlast : k = xs.length
  · subst hlast
    rw [Function.update_self, List.getElem_concat_length rfl]
  · have hk' : k < xs.length := by omega
    rw [Function.update_of_ne fun hc => hlast (cell_injective (Nat.lt_trans hk' hlen) hlen hc),
      List.getElem_append_left hk', h.get k hk']

theorem Holds.head {x : α} (h : Holds size cell start (x :: xs)) : cell (start % size) = x := by
  simpa using h.get 0 (Nat.succ_pos _)

theorem Holds.pop {x : α} (h : Holds size cell start (x :: xs)) :
    Holds size cell (start + 1) xs := by
  refine ⟨Nat.le_of_succ_le h.length, fun k hk => ?_⟩
  have hget := h.get (k + 1) (Nat.succ_lt_succ hk)
  rwa [Nat.add_assoc, Nat.add_comm 1 k]

theorem Holds.dropLast (h : Holds size cell start xs) : Holds size cell start xs.dropLast := by
  refine ⟨?_, fun k hk => ?_⟩
  · rw [List.length_dropLast]
    exact Nat.le_trans (Nat.sub_le _ _) h.length
  · have hk' : k < xs.length := by
      rw [List.length_dropLast] at hk
      omega
    rw [List.getElem_dropLast, h.get k hk']

theorem Holds.read (h : Holds size cell start xs) :
    (List.range xs.length).map (fun k => cell ((start + k) % size)) = xs := by
  refine List.ext_getElem (by simp) fun k hk hk' => ?_
  rw [List.getElem_map, List.getElem_range, h.get k hk']

end Leg.RingBuffer

import Leg.Memory.HeapHolds

/-! `krealloc` on the pointer of a live client: it leaves the block where it is, is refused, or
moves the client's bytes to a block of their own. -/
namespace Leg
open Tiling Memory

/-- The bytes from a pointer to the end of its block. -/
def KHeap.usable (s : KHeap) (ptr : ℕ) : ℕ :=
  s.resolve ptr + s.size (wsub (s.resolve ptr) hdrBytes) - ptr

section Views
variable {s : KHeap} {live rest : List Client} {a n : ℕ} {c d : Client}

theorem HeldBlock.usable (h : HeldBlock s a n c) :
    s.usable c.ptr = a + hdrBytes + n - c.ptr ∧ c.bytes ≤ s.usable c.ptr := by
  have heq : s.usable c.ptr = a + hdrBytes + n - c.ptr := by
    unfold KHeap.usable
    rw [h.header, h.sizeAt, h.resolve]
  have := h.holds.upper
  exact ⟨heq, by omega⟩

theorem HeapLaid.holds_at (h : HeapLaid s live) (hd : d ∈ live) (hx : HeldBlock s a n d) :
    HeapHolds s (live.erase d) a n d := by
  obtain ⟨x, k, hk⟩ := h.holds hd
  obtain ⟨rfl, rfl⟩ := hx.unique hk.held
  exact hk

end Views

section Realloc
variable {s : KHeap} {rest : List Client} {a n size : ℕ} {c : Client}

theorem krealloc_inPlace (h : HeldBlock s a n c) (h0 : size ≠ 0)
    (hfit : alignUp size kheapAlign ≤ n) : s.krealloc c.ptr size = some (s, c.ptr) := by
  unfold KHeap.krealloc
  rw [if_neg h.ptr_ne_zero, if_neg h0, h.header]
  simp only [h.hdrValid, not_true, if_false, h.sizeAt, hfit, if_true]

/-- A client whose block is too small moves, or the heap stays as it is. -/
theorem krealloc_move (h : HeapHolds s rest a n c) (h0 : size ≠ 0) (hsize : size < 4294967296)
    (hfit : ¬ alignUp size kheapAlign ≤ n) : s.krealloc c.ptr size = some (s, 0) ∨
      ∃ t p, s.krealloc c.ptr size = some (t, p) ∧ p ≠ 0 ∧ t.base = s.base ∧
        HeapLaid t (⟨p, size⟩ :: rest) ∧
        (∀ k < min (s.usable c.ptr) size, t.mem (p + k) = s.mem (c.ptr + k)) ∧
        ∀ d ∈ rest, ∀ x k, HeldBlock s x k d → Agree s.mem t.mem x (x + hdrBytes + k) := by
  have hheld := h.held
  have hmax : size + 7 < 4294967296 := by
    by_contra hwrap
    have hw : alignUp size kheapAlign = u32 (size + 2 ^ 3 - 1) / 2 ^ 3 * 2 ^ 3 :=
      alignUp_two_pow (k := 3) (by decide)
    have : u32 (size + 2 ^ 3 - 1) < 8 := by
      unfold u32
      omega
    omega
  unfold KHeap.krealloc
  rw [if_neg hheld.ptr_ne_zero, if_neg h0, hheld.header]
  simp only [hheld.hdrValid, not_true, if_false, hheld.sizeAt, hfit]
  rcases kmalloc_holds h.laid (Nat.pos_of_ne_zero h0) hmax with hr | ⟨t, b, k, hr, hbase, hh, hk⟩
  · left
    simp [hr]
  right
  have hnew := hh.held
  have hp := hnew.ptr_ne_zero
  dsimp only at hp
  have hcap : t.capacity = s.capacity := hnew.capacity.trans hheld.capacity.symm
  have hkeep := kmalloc_keeps h hr
  have hheld' := hheld.transport hkeep hbase hcap
  -- the bytes that are copied, and the heap once they are
  simp only [hr, hp, if_false, hheld'.sizeAt]
  generalize hm : (if n < size then n else size) = m
  have hms : m ≤ size := by
    rw [← hm]
    split <;> omega
  have hh2 := hh.reowned (m := t.mem.copyUp (b + hdrBytes) c.ptr m) (d := ⟨b + hdrBytes, size⟩)
    (fun lo hi hhi => copyUp_agree _ _ _ (.inl hhi))
    (fun lo hi hlo => copyUp_agree _ _ _ (.inr (by omega)))
    ⟨le_refl _, by dsimp only; omega, Nat.pos_of_ne_zero h0, .inl rfl⟩
  have hlaid2 := hh2.laid.perm (List.Perm.swap c ⟨b + hdrBytes, size⟩ rest)
  have hcopy {x j : ℕ} (hx : b + hdrBytes + k ≤ x ∨ x + hdrBytes + j ≤ b) :
      Agree t.mem (t.mem.copyUp (b + hdrBytes) c.ptr m) x (x + hdrBytes + j) :=
    copyUp_agree _ _ _ (by omega)
  have hapart := hh.apart (List.mem_cons_self ..) hheld'.owns
  rw [hheld'.sizeAt] at hapart
  have hc2 := hlaid2.holds_at (List.mem_cons_self ..)
    (hheld'.transport (t := { t with mem := t.mem.copyUp (b + hdrBytes) c.ptr m }) (hcopy hapart)
      rfl rfl)
  rw [List.erase_cons_head] at hc2
  obtain ⟨u, hu, hub, hul⟩ := kfree_laid hc2
  refine ⟨u, b + hdrBytes, by rw [hu]; rfl, hp, hub.trans hbase, hul, fun j hj => ?_,
    fun d hd x j hx => ?_⟩
  · obtain ⟨husable, -⟩ := hheld.usable
    have hlower := hheld.holds.lower
    have hjm : j < m := by
      rw [← hm]
      split <;> omega
    have hsrc : c.ptr + j < a + hdrBytes + n := by omega
    rw [kfree_keeps hh2 (List.mem_cons_self ..) hu _ (by omega) (by omega)]
    dsimp only
    rw [copyUp_get _ hjm (by omega)]
    exact hkeep _ (by omega) hsrc
  · have hlive := h.laid
    have hne : d ≠ c := by
      rintro rfl
      exact (List.nodup_cons.mp hlive.nodup).1 hd
    have hkeep1 := kmalloc_keeps (hlive.holds_at (List.mem_cons_of_mem c hd) hx) hr
    have hx1 := hx.transport hkeep1 hbase hcap
    have hout := hh.apart (List.mem_cons_of_mem c hd) hx1.owns
    rw [hx1.sizeAt] at hout
    have hkeep2 := hcopy hout
    have hx2 := hx1.transport (t := { t with mem := t.mem.copyUp (b + hdrBytes) c.ptr m }) hkeep2
      rfl rfl
    have hmem : d ∈ c :: (⟨b + hdrBytes, size⟩ : Client) :: rest :=
      List.mem_cons_of_mem c (List.mem_cons_of_mem _ hd)
    have hc : c ∈ (c :: (⟨b + hdrBytes, size⟩ : Client) :: rest).erase d :=
      (List.mem_erase_of_ne hne.symm).mpr (List.mem_cons_self ..)
    exact hkeep1.trans (hkeep2.trans (kfree_keeps (hlaid2.holds_at hmem hx2) hc hu))

end Realloc

end Leg

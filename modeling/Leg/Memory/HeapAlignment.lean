import Leg.Memory.HeapContracts
import Leg.Memory.PageAllocator

/-! Where the heap's pointers lie modulo eight. Sizes are rounded to eight and a header takes
twelve bytes, so each block whose size is a multiple of eight moves the next one by four. -/
namespace Leg
open Tiling Memory Runs

section Parity
variable {s : KHeap} {live : List Client} {hdrs : List ℕ} {a b e n size : ℕ} {c : Client}

/-- An odd number of the blocks below the one at `a` have a size that is a multiple of eight. -/
def OddEights (s : KHeap) (a : ℕ) : Prop :=
  ∃ hdrs, Tiles s s.base hdrs (s.base + s.capacity) ∧
    hdrs.countP (fun x => decide (x < a ∧ 8 ∣ s.size x)) % 2 = 1

/-- A request finds no block, or one above an odd number of such blocks. -/
def MallocEven (s : KHeap) (size : ℕ) : Prop :=
  size = 0 ∨ ∀ a, FirstFit s (alignUp size kheapAlign) a → OddEights s a

/-- A block that is large enough for the rounded size is above an odd number of such blocks, or
the request to move is as good. -/
def ReallocEven (s : KHeap) (ptr size : ℕ) : Prop :=
  size = 0 ∨ if alignUp size kheapAlign ≤ s.size (wsub ptr hdrBytes) then
    OddEights s (wsub ptr hdrBytes) else MallocEven s size

/-- The result of an allocation is a multiple of eight, null among them. -/
def EightAligned (r : KHeap × ℕ) : Prop := 8 ∣ r.2

instance : DecidablePred EightAligned := fun r => inferInstanceAs (Decidable (8 ∣ r.2))

/-- Above a boundary, a block's bytes start at a multiple of eight as the sizes between say. -/
theorem Tiles.eight_iff (h : Tiles s b hdrs e) (ha : a ∈ hdrs) (hsizes : ∀ x ∈ hdrs, 4 ∣ s.size x) :
    4 ∣ a + hdrBytes - b ∧ (8 ∣ a + hdrBytes - b ↔
      hdrs.countP (fun x => decide (x < a ∧ 8 ∣ s.size x)) % 2 = 1) := by
  induction hdrs generalizing b with
  | nil => exact absurd ha List.not_mem_nil
  | cons y hs ih =>
    obtain ⟨rfl, ht⟩ := h
    have h4 := hsizes y (List.mem_cons_self ..)
    rw [List.countP_cons]
    rcases List.mem_cons.mp ha with rfl | hmem
    · -- no block lies below the first one
      have hnone : hs.countP (fun x => decide (x < a ∧ 8 ∣ s.size x)) = 0 := by
        refine List.countP_eq_zero.mpr fun x hx => ?_
        have := (ht.bounds hx).1
        simp only [decide_eq_true_eq]
        omega
      rw [hnone]
      simp [hdrBytes]
    · have hlow := (ht.bounds hmem).1
      obtain ⟨h4', h8'⟩ := ih ht hmem fun x hx => hsizes x (List.mem_cons_of_mem y hx)
      have heq : a + hdrBytes - y =
          a + hdrBytes - (y + hdrBytes + s.size y) + hdrBytes + s.size y := by omega
      have hlt : y < a := by
        unfold hdrBytes at hlow
        omega
      rw [heq]
      generalize a + hdrBytes - (y + hdrBytes + s.size y) = d at *
      unfold hdrBytes
      by_cases h8 : 8 ∣ s.size y
      · rw [if_pos (by simp [hlt, h8])]
        omega
      · rw [if_neg (by simp [h8])]
        omega

theorem HeapLaid.eight_iff (h : HeapLaid s live) (hbase : 8 ∣ s.base)
    (ha : ∃ hdrs, Tiles s s.base hdrs (s.base + s.capacity) ∧ a ∈ hdrs) :
    8 ∣ a + hdrBytes ↔ OddEights s a := by
  obtain ⟨hdrs, ht, hmem⟩ := ha
  have hlow := (ht.bounds hmem).1
  have hsizes : ∀ x ∈ hdrs, 4 ∣ s.size x := by
    intro x hx
    obtain ⟨blocks, hrep, -, -, h4⟩ := h
    obtain rfl := ht.unique hrep.tiles
    obtain ⟨pre, d, post, rfl, rfl, hsize, -⟩ := hrep.block_at hx
    exact hsize ▸ h4 d (by simp)
  obtain ⟨-, heq⟩ := ht.eight_iff hmem hsizes
  rw [show 8 ∣ a + hdrBytes ↔ 8 ∣ a + hdrBytes - s.base by omega, heq]
  refine ⟨fun hodd => ⟨hdrs, ht, hodd⟩, ?_⟩
  rintro ⟨hdrs', ht', hodd⟩
  exact ht.unique ht' ▸ hodd

theorem kmalloc_eight_iff (h : HeapLaid s live) (hbase : 8 ∣ s.base) (size : ℕ) :
    ∃ r, s.kmalloc size = some r ∧ (EightAligned r ↔ MallocEven s size) := by
  unfold EightAligned MallocEven
  by_cases h0 : size = 0
  · exact ⟨(s, 0), by rw [KHeap.kmalloc, if_pos h0], iff_of_true (dvd_zero 8) (.inl h0)⟩
  rw [or_iff_right h0]
  rcases kmalloc_fit h.ok h0 with ⟨hr, hno⟩ | ⟨t, a, hr, -, -, hfit, -⟩
  · exact ⟨_, hr, iff_of_true (dvd_zero 8) fun a ha => absurd ha (hno a)⟩
  refine ⟨_, hr, ?_⟩
  obtain ⟨hdrs, ht, hmem, -⟩ := id hfit
  rw [h.eight_iff hbase ⟨hdrs, ht, hmem⟩]
  refine ⟨fun hodd x hx => ?_, fun hall => hall a hfit⟩
  rwa [hfit.unique hx]

theorem kzalloc_eight_iff (h : HeapLaid s live) (hbase : 8 ∣ s.base) (size : ℕ) :
    ∃ r, s.kzalloc size = some r ∧ (EightAligned r ↔ MallocEven s size) := by
  obtain ⟨r, hr, hiff⟩ := kmalloc_eight_iff h hbase size
  exact ⟨(if r.2 ≠ 0 then { r.1 with mem := r.1.mem.fill r.2 size 0 } else r.1, r.2),
    by rw [KHeap.kzalloc, hr], hiff⟩

theorem krealloc_pointer {ptr : ℕ} {r u : KHeap × ℕ} (hp : ptr ≠ 0) (h0 : size ≠ 0)
    (hfit : ¬ alignUp size kheapAlign ≤ s.size (wsub (s.resolve ptr) hdrBytes))
    (hr : s.krealloc ptr size = some r) (hu : s.kmalloc size = some u) : r.2 = u.2 := by
  unfold KHeap.krealloc at hr
  rw [if_neg hp, if_neg h0] at hr
  dsimp only at hr
  split at hr
  next => exact absurd hr (by simp)
  rw [hu] at hr
  dsimp only at hr
  split at hr
  next hnull =>
    obtain rfl := Option.some.inj hr
    exact hnull.symm
  next =>
    obtain ⟨t, -, rfl⟩ := Option.map_eq_some_iff.mp hr
    rfl

/-- A block handed out by `kmalloc`, `kzalloc` or a `krealloc` of such: the pointer is where the
header ends. -/
theorem krealloc_eight_iff (h : HeapLaid s live) (hbase : 8 ∣ s.base) (hc : c ∈ live)
    (hplain : s.resolve c.ptr = c.ptr) (hsize : size < 4294967296) :
    ∃ r, s.krealloc c.ptr size = some r ∧ (EightAligned r ↔ ReallocEven s c.ptr size) := by
  obtain ⟨a, n, hh⟩ := h.holds hc
  have hheld := hh.held
  have hptr := hheld.resolve
  rw [hplain] at hptr
  have hheader := hheld.header
  rw [hplain] at hheader
  unfold ReallocEven
  rw [hheader, hheld.sizeAt]
  by_cases h0 : size = 0
  · obtain ⟨t, ht, -⟩ := kfree_laid hh
    refine ⟨(t, 0), ?_, iff_of_true (dvd_zero 8) (.inl h0)⟩
    rw [KHeap.krealloc, if_neg hheld.ptr_ne_zero, if_pos h0, ht]
    rfl
  rw [or_iff_right h0]
  by_cases hfit : alignUp size kheapAlign ≤ n
  · rw [if_pos hfit]
    refine ⟨_, krealloc_inPlace hheld h0 hfit, ?_⟩
    unfold EightAligned
    dsimp only
    rw [hptr]
    refine h.eight_iff hbase ?_
    obtain ⟨pre, post, rfl, hrep, -⟩ := hh
    exact ⟨_, hrep.tiles, mem_addrs.mpr ⟨pre, _, post, rfl, rfl⟩⟩
  rw [if_neg hfit]
  obtain ⟨u, hu, hiff⟩ := kmalloc_eight_iff h hbase size
  obtain ⟨r, hr⟩ : ∃ r, s.krealloc c.ptr size = some r := by
    rcases krealloc_move hh h0 hsize hfit with hr | ⟨t, p, hr, -⟩
    · exact ⟨_, hr⟩
    · exact ⟨_, hr⟩
  refine ⟨r, hr, ?_⟩
  have hsame := krealloc_pointer hheld.ptr_ne_zero h0
    (by rwa [hplain, hheader, hheld.sizeAt]) hr hu
  rw [← hiff]
  unfold EightAligned
  rw [hsame]

/-- In every state that valid calls lead to without a wrapped one from a page-aligned base, the
pointers of `kmalloc` and `kzalloc` of any size, and of `krealloc` of a plain block, are multiples
of eight exactly when an odd number of the blocks below have a size that is one. -/
theorem pointers_eight_iff {heapVa : ℕ} (hpos : 0 < heapVa) (hpage : pageSize ∣ heapVa)
    (hfits : heapVa + kheapSize < 4294967296) {st : HeapState} (hst : HeapUnwrapped heapVa st)
    (hsize : size < 4294967296) :
    (∃ r, st.heap.kmalloc size = some r ∧ (EightAligned r ↔ MallocEven st.heap size)) ∧
    (∃ r, st.heap.kzalloc size = some r ∧ (EightAligned r ↔ MallocEven st.heap size)) ∧
    ∀ c ∈ st.live, st.heap.resolve c.ptr = c.ptr → ∃ r, st.heap.krealloc c.ptr size = some r ∧
      (EightAligned r ↔ ReallocEven st.heap c.ptr size) := by
  obtain ⟨hbase, h⟩ := hst.laid hpos hfits
  have height : 8 ∣ pageSize := by decide
  have h8 : 8 ∣ st.heap.base := hbase ▸ height.trans hpage
  exact ⟨kmalloc_eight_iff h h8 size, kzalloc_eight_iff h h8 size,
    fun c hc hplain => krealloc_eight_iff h h8 hc hplain hsize⟩

/-- Above one block of eight bytes the next pointer is a multiple of eight, and stays where it is
for less. -/
theorem pointers_eight_second : ∃ st, HeapUnwrapped 0xC0100000 st ∧
    (∃ r, st.heap.kmalloc 8 = some r ∧ EightAligned r ∧ MallocEven st.heap 8) ∧
    ∃ u, HeapUnwrapped 0xC0100000 u ∧ ∃ c ∈ u.live, ∃ r, u.heap.krealloc c.ptr 4 = some r ∧
      EightAligned r ∧ ReallocEven u.heap c.ptr 4 := by
  obtain ⟨st, hst, hb⟩ := exists_unwrapped_heap [.op (.malloc 8)]
    (fun st => (st.heap.kmalloc 8).any fun r => decide (EightAligned r))
    (by decide +kernel)
  obtain ⟨u, hu, c, hc, hplain, hb'⟩ := exists_unwrapped_heap [.op (.malloc 8), .op (.malloc 8)]
    (fun u => ∃ c ∈ u.live, u.heap.resolve c.ptr = c.ptr ∧
      (u.heap.krealloc c.ptr 4).any fun r => decide (EightAligned r))
    (by decide +kernel)
  obtain ⟨⟨r, hr, hiff⟩, -⟩ := pointers_eight_iff (by decide) (by decide) (by decide) hst
    (show 8 < 4294967296 by decide)
  obtain ⟨-, -, hall⟩ := pointers_eight_iff (by decide) (by decide) (by decide) hu
    (show 4 < 4294967296 by decide)
  obtain ⟨v, hv, hiff'⟩ := hall c hc hplain
  rw [hr] at hb
  rw [hv] at hb'
  have h8 := of_decide_eq_true hb
  have h8' := of_decide_eq_true hb'
  exact ⟨st, hst, ⟨r, hr, h8, hiff.mp h8⟩, u, hu, c, hc, v, hv, h8', hiff'.mp h8'⟩

/-- The first pointer of a fresh heap is 12 bytes past a page, and stays there for less. -/
theorem first_pointer_not_eight :
    (∃ r, freshHeap.heap.kmalloc 8 = some r ∧ ¬ EightAligned r) ∧
    (∃ r, freshHeap.heap.kzalloc 8 = some r ∧ ¬ EightAligned r) ∧
    ∃ st, HeapReachable 0xC0100000 st ∧ ∃ c ∈ st.live, st.heap.resolve c.ptr = c.ptr ∧
      ∃ r, st.heap.krealloc c.ptr 4 = some r ∧ ¬ EightAligned r := by
  obtain ⟨r, hr, hb⟩ := (Option.any_eq_true _ _).mp
    (by decide +kernel : (freshHeap.heap.kmalloc 8).any fun r => decide (¬ EightAligned r))
  obtain ⟨u, hu, hb'⟩ := (Option.any_eq_true _ _).mp
    (by decide +kernel : (freshHeap.heap.kzalloc 8).any fun r => decide (¬ EightAligned r))
  obtain ⟨st, hst, c, hc, hplain, hv⟩ := exists_unwrapped_heap [.op (.malloc 8)]
    (fun u => ∃ c ∈ u.live, u.heap.resolve c.ptr = c.ptr ∧
      (u.heap.krealloc c.ptr 4).any fun r => decide (¬ EightAligned r))
    (by decide +kernel)
  obtain ⟨v, hv, hb''⟩ := (Option.any_eq_true _ _).mp hv
  exact ⟨⟨r, hr, of_decide_eq_true hb⟩, ⟨u, hu, of_decide_eq_true hb'⟩, st, hst.reachable, c, hc,
    hplain, v, hv,
    of_decide_eq_true hb''⟩

end Parity

end Leg

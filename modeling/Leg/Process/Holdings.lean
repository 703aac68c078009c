import Leg.Lib.Slots
import Leg.Memory.KernelHeapRun
import Leg.Memory.PageRun
import Leg.Process.AddressSpace

/-! What one state of the allocators and tables holds beyond an earlier one: these heap blocks
and these pages, and no change to the tables that were there. Each call that allocates or
frees changes the two lists by one element. -/
namespace Leg
open Slots

/-- The allocators are consistent, RAM does not start at address 0, and the heap lies in the
kernel's half of the address space. -/
structure VmOk (vm : Vm) : Prop where
  heap : HeapOk vm.heap vm.live
  high : kernelVa ≤ vm.heap.base
  pmm : PmmOk vm.pmm
  ram_pos : 0 < vm.pmm.ramBase

/-- `b` is `a` with the heap blocks `blocks` and the pages `pages` besides. -/
structure Holds (a b : Vm) (blocks : List Client) (pages : List ℕ) : Prop where
  ok : VmOk b
  live : b.live.Perm (blocks ++ a.live)
  region : SameRegion a.pmm b.pmm
  bits : ∀ j < a.pmm.totalPages, bmTest b.pmm.bitmap j =
    (bmTest a.pmm.bitmap j || decide (a.pmm.ramBase + j * pageSize ∈ pages))
  nodup : pages.Nodup
  fresh : ∀ pa ∈ pages, ∃ j < a.pmm.totalPages,
    pa = a.pmm.ramBase + j * pageSize ∧ bmTest a.pmm.bitmap j = false
  l1 : ∀ c ∈ a.live, b.l1 c.ptr = a.l1 c.ptr
  l2 : ∀ c ∈ a.live, b.l2 c.ptr = a.l2 c.ptr

section Order
variable {a b c : Vm} {B B' : List Client} {P P' : List ℕ}

theorem Holds.refl (h : VmOk a) : Holds a a [] [] :=
  ⟨h, by simp, .refl _, fun j _ => by simp, List.nodup_nil, by simp, fun _ _ => rfl, fun _ _ => rfl⟩

theorem Holds.perm (h : Holds a b B P) (hB : B.Perm B') (hP : P.Perm P') : Holds a b B' P' :=
  ⟨h.ok, h.live.trans (hB.append_right _), h.region,
    fun j hj => by rw [h.bits j hj]; congr 2; exact propext hP.mem_iff,
    hP.nodup_iff.mp h.nodup, fun pa hpa => h.fresh pa (hP.mem_iff.mpr hpa), h.l1, h.l2⟩

theorem Holds.trans (h : Holds a b B P) (h' : Holds b c B' P') : Holds a c (B' ++ B) (P' ++ P) := by
  have hold : ∀ d ∈ a.live, d ∈ b.live := fun d hd =>
    h.live.mem_iff.mpr (List.mem_append_right _ hd)
  refine ⟨h'.ok, ?_, h.region.trans h'.region, fun j hj => ?_, ?_, fun pa hpa => ?_,
    fun d hd => (h'.l1 d (hold d hd)).trans (h.l1 d hd),
    fun d hd => (h'.l2 d (hold d hd)).trans (h.l2 d hd)⟩
  · rw [List.append_assoc]
    exact h'.live.trans (h.live.append_left _)
  · rw [h'.bits j (h.region.totalPages ▸ hj), h.bits j hj, h.region.ramBase, Bool.or_assoc,
      ← Bool.decide_or]
    congr 2
    rw [List.mem_append, or_comm]
  · refine List.Nodup.append h'.nodup h.nodup fun pa hpa' hpa => ?_
    -- a page that was held already is not free to be taken again
    obtain ⟨j, hj, heq, hclear⟩ := h'.fresh pa hpa'
    rw [h.region.ramBase] at heq
    rw [h.bits j (h.region.totalPages ▸ hj), ← heq, decide_eq_true hpa, Bool.or_true] at hclear
    exact absurd hclear (by decide)
  · rcases List.mem_append.mp hpa with hpa | hpa
    · obtain ⟨j, hj, heq, hclear⟩ := h'.fresh pa hpa
      rw [h.region.totalPages] at hj
      rw [h.bits j hj, Bool.or_eq_false_iff] at hclear
      exact ⟨j, hj, heq.trans (by rw [h.region.ramBase]), hclear.1⟩
    · exact h.fresh pa hpa

theorem Holds.tables (h : Holds a b B P) {l1 l2 : ℕ → ℕ → ℕ}
    (h1 : ∀ d ∈ a.live, l1 d.ptr = b.l1 d.ptr) (h2 : ∀ d ∈ a.live, l2 d.ptr = b.l2 d.ptr) :
    Holds a { b with l1 := l1, l2 := l2 } B P :=
  ⟨⟨h.ok.heap, h.ok.high, h.ok.pmm, h.ok.ram_pos⟩, h.live, h.region, h.bits, h.nodup, h.fresh,
    fun d hd => (h1 d hd).trans (h.l1 d hd), fun d hd => (h2 d hd).trans (h.l2 d hd)⟩

theorem Holds.ptrs_nodup (h : Holds a b B P) : ((B ++ a.live).map Client.ptr).Nodup :=
  (h.live.map _).nodup_iff.mp h.ok.heap.ptrs_nodup

theorem Holds.ptr_ne (h : Holds a b B P) {d e : Client} (hd : d ∈ B) (he : e ∈ a.live) :
    e.ptr ≠ d.ptr := by
  have := h.ptrs_nodup
  rw [List.map_append] at this
  exact fun heq => List.disjoint_of_nodup_append this (List.mem_map_of_mem hd)
    (heq ▸ List.mem_map_of_mem he)

theorem Holds.setL1 (h : Holds a b B P) {d : Client} (hd : d ∈ B) (f : ℕ → ℕ) :
    Holds a { b with l1 := Function.update b.l1 d.ptr f } B P :=
  h.tables (fun _ he => Function.update_of_ne (h.ptr_ne hd he) _ _) fun _ _ => rfl

theorem Holds.setL2 (h : Holds a b B P) {d : Client} (hd : d ∈ B) (f : ℕ → ℕ) :
    Holds a { b with l2 := Function.update b.l2 d.ptr f } B P :=
  h.tables (fun _ _ => rfl) fun _ he => Function.update_of_ne (h.ptr_ne hd he) _ _

end Order

section Heap
variable {a b : Vm} {B : List Client} {P : List ℕ}

theorem Holds.gained (h : Holds a b B P) {size p : ℕ} {t : KHeap} (hp : p ≠ 0)
    (hbase : t.base = b.heap.base) (ht : HeapOk t (⟨p, size⟩ :: b.live)) :
    Holds a (b.gain size (t, p)) (⟨p, size⟩ :: B) P ∧ kernelVa ≤ p ∧ p < 4294967296 ∧
      ∀ d ∈ b.live, d.ptr ≠ p := by
  have hhigh := h.ok.high
  have hlive : (b.gain size (t, p)).live = ⟨p, size⟩ :: b.live := by
    simp [Vm.gain, hp]
  obtain ⟨hpos, hlow, htop, hfits⟩ := ht.mem_bounds (List.mem_cons_self ..)
  dsimp only at hpos hlow htop
  refine ⟨⟨⟨hlive ▸ ht, hbase ▸ hhigh, h.ok.pmm, h.ok.ram_pos⟩, ?_, h.region, h.bits, h.nodup,
    h.fresh, h.l1, h.l2⟩, by omega, by omega, fun d hd => ?_⟩
  · rw [hlive]
    exact h.live.cons _
  · have hnodup := ht.ptrs_nodup
    rw [List.map_cons, List.nodup_cons] at hnodup
    exact fun heq => hnodup.1 (List.mem_map.mpr ⟨d, hd, heq⟩)

theorem Holds.alloc (h : Holds a b B P) {size k : ℕ} (hsize : size ≤ kheapSize) (hlo : 3 ≤ k)
    (hhi : k ≤ 21) : b.kmallocAligned size (2 ^ k) = some (b, 0) ∨
      ∃ b' p, b.kmallocAligned size (2 ^ k) = some (b', p) ∧ p ≠ 0 ∧
        Holds a b' (⟨p, size⟩ :: B) P ∧ b'.l1 = b.l1 ∧ b'.l2 = b.l2 ∧ p % 2 ^ k = 0 ∧
        kernelVa ≤ p ∧ p < 4294967296 ∧ ∀ d ∈ b.live, d.ptr ≠ p := by
  have hal : 2 ^ k ≤ kheapSize := Nat.pow_le_pow_right (by decide) hhi
  unfold Vm.kmallocAligned
  rcases kmallocAligned_heapOk h.ok.heap hsize hal with hr | ⟨t, p, hr, hp, hbase, ht⟩
  · left
    rw [hr]
    rfl
  · right
    obtain ⟨hh, hlow, htop, hne⟩ := h.gained hp hbase ht
    exact ⟨_, p, by rw [hr]; rfl, hp, hh, rfl, rfl,
      kmallocAligned_aligned hlo (by omega) hr, hlow, htop, hne⟩

theorem Holds.kmalloc (h : Holds a b B P) {size : ℕ} (hsize : size + 7 < 4294967296) :
    b.kmalloc size = some (b, 0) ∨ ∃ b' p, b.kmalloc size = some (b', p) ∧ p ≠ 0 ∧
      Holds a b' (⟨p, size⟩ :: B) P ∧ b'.l1 = b.l1 ∧ b'.l2 = b.l2 := by
  unfold Vm.kmalloc
  rcases kmalloc_heapOk h.ok.heap hsize with hr | ⟨t, p, hr, hp, hbase, ht⟩
  · left
    rw [hr]
    rfl
  · right
    exact ⟨_, p, by rw [hr]; rfl, hp, (h.gained hp hbase ht).1, rfl, rfl⟩

theorem filter_ptr_ne {l : List Client} (hl : (l.map Client.ptr).Nodup) {c : Client} (hc : c ∈ l) :
    l.filter (fun d => d.ptr ≠ c.ptr) = l.erase c := by
  rw [hl.of_map.erase_eq_filter]
  refine List.filter_congr fun d hd => ?_
  have hinj : d.ptr = c.ptr ↔ d = c :=
    ⟨List.inj_on_of_nodup_map hl hd hc, fun heq => heq ▸ rfl⟩
  simp only [ne_eq, hinj, bne, decide_not]
  rfl

theorem Holds.free (h : Holds a b B P) {c : Client} (hc : c ∈ B) :
    ∃ b', b.kfree c.ptr = some b' ∧ Holds a b' (B.erase c) P ∧ b'.l1 = b.l1 ∧ b'.l2 = b.l2 := by
  have hmem : c ∈ b.live := h.live.mem_iff.mpr (List.mem_append_left _ hc)
  obtain ⟨t, ht, hbase, hok⟩ := kfree_heapOk h.ok.heap hmem
  rw [← filter_ptr_ne h.ok.heap.ptrs_nodup hmem] at hok
  refine ⟨{ b with heap := t, live := b.live.filter fun d => d.ptr ≠ c.ptr },
    by rw [Vm.kfree, ht]; rfl, ⟨⟨hok, hbase ▸ h.ok.high, h.ok.pmm, h.ok.ram_pos⟩, ?_,
    h.region, h.bits, h.nodup, h.fresh, h.l1, h.l2⟩, rfl, rfl⟩
  dsimp only
  rw [filter_ptr_ne h.ok.heap.ptrs_nodup hmem]
  have := h.live.erase c
  rwa [List.erase_append_left _ hc] at this

end Heap

section Pages
variable {a b : Vm} {B : List Client} {P : List ℕ}

/-- A page allocation gives null and changes nothing, or a page not held before. -/
theorem Holds.pageAlloc (h : Holds a b B P) : b.pageAlloc = (b, 0) ∨
    b.pageAlloc.2 ≠ 0 ∧ b.pageAlloc.2 % pageSize = 0 ∧ b.pageAlloc.2 < 4294967296 ∧
      Holds a b.pageAlloc.1 B (b.pageAlloc.2 :: P) := by
  unfold Vm.pageAlloc
  rw [mmPageAlloc_eq]
  rcases mmPageAllocN_cases h.ok.pmm 1 with ⟨hnone, -⟩ | ⟨-, hok, htaken⟩
  · left
    rw [hnone]
  · right
    have hne := htaken.ne_zero h.ok.ram_pos
    obtain ⟨hreg, idx, hpa, hfit, hfree, hbits⟩ := htaken
    have hal := h.ok.pmm.base_aligned
    have hend := h.ok.pmm.ramEnd
    have htop := h.ok.pmm.ramEnd_lt
    have hidx := hfree idx (le_refl _) (by omega)
    have hclear := h.bits idx (by rw [← h.region.totalPages]; omega)
    rw [hidx, ← h.region.ramBase, ← hpa] at hclear
    obtain ⟨hwas, hnew⟩ := Bool.or_eq_false_iff.mp hclear.symm
    refine ⟨hne, ?_, ?_, ⟨⟨h.ok.heap, h.ok.high, hok, hreg.ramBase ▸ h.ok.ram_pos⟩, h.live,
      h.region.trans hreg, fun j hj => ?_, ?_, fun pa hmem => ?_, h.l1, h.l2⟩⟩
    · rw [hpa]
      unfold pageSize at *
      omega
    · rw [hpa]
      unfold pageSize at *
      omega
    · rw [hbits, h.bits j hj, Bool.or_assoc, ← Bool.decide_or]
      congr 2
      rw [List.mem_cons, hpa, h.region.ramBase, or_comm]
      congr 1
      apply propext
      unfold pageSize
      omega
    · exact List.nodup_cons.mpr ⟨of_decide_eq_false hnew, h.nodup⟩
    · rcases List.mem_cons.mp hmem with rfl | hmem
      · exact ⟨idx, by rw [← h.region.totalPages]; omega, by rw [hpa, h.region.ramBase], hwas⟩
      · exact h.fresh pa hmem

/-- A free of a page that is held. -/
theorem Holds.pageFree (h : Holds a b B P) {pa : ℕ} (hpa : pa ∈ P) :
    Holds a (b.pageFree pa) B (P.erase pa) := by
  obtain ⟨j, hj, heq, hclear⟩ := h.fresh pa hpa
  have hset : mmPageIsAllocated b.pmm pa = true := by
    rw [mmPageIsAllocated_iff h.ok.pmm]
    refine ⟨j, h.region.totalPages ▸ hj, by rw [heq, h.region.ramBase], ?_⟩
    rw [h.bits j hj, ← heq, decide_eq_true hpa, Bool.or_true]
  rcases mmPageFree_cases h.ok.pmm pa with ⟨-, -, hno⟩ | ⟨-, hok, hreg, idx, hi, hidx, -, hbits⟩
  · rw [hno] at hset
    exact absurd hset (by decide)
  · refine ⟨⟨h.ok.heap, h.ok.high, hok, hreg.ramBase ▸ h.ok.ram_pos⟩, h.live, h.region.trans hreg,
      fun i hi => ?_, h.nodup.erase _, fun q hq => h.fresh q (List.mem_of_mem_erase hq), h.l1, h.l2⟩
    have hij : i = idx ↔ a.pmm.ramBase + i * pageSize = pa := by
      rw [hidx, h.region.ramBase]
      unfold pageSize
      omega
    change bmTest (mmPageFree b.pmm pa).1.bitmap i = _
    rw [hbits, h.bits i hi]
    simp only [h.nodup.mem_erase_iff, ne_eq, hij]
    by_cases hi' : a.pmm.ramBase + i * pageSize = pa
    · have : i = j := by
        rw [heq] at hi'
        unfold pageSize at hi'
        omega
      subst this
      simp [hi', hclear]
    · simp [hi']

end Pages

end Leg

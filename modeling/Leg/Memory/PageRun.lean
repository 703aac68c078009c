import Leg.Memory.PageAllocatorInvariant

/-! Runs of the page allocator's calls. Beside the allocator goes the list of the pages
handed out and not yet given back, which no call reads. -/
namespace Leg
open Runs

inductive PageOp where
  | alloc
  | allocN (n : ℕ)
  | free (pa : ℕ)
  | freeN (pa n : ℕ)

/-- The addresses of `n` pages from `pa` on. -/
def pagesFrom (pa n : ℕ) : List ℕ := (List.range n).map fun i => pa + i * pageSize

/-- The pages a call gives back: a multi-page free stops at the first page that is free. -/
def givenBack (g : Pmm) : PageOp → List ℕ
  | .free pa => if (mmPageFree g pa).2 = .ok then [pa] else []
  | .freeN pa n =>
    if paAligned pa ∧ g.paInRange pa then (pagesFrom pa n).takeWhile (mmPageIsAllocated g) else []
  | _ => []

/-- The allocator with the pages its clients hold. -/
structure Tracked where
  pmm : Pmm
  held : List ℕ

/-- The pages still held once those in `back` are given back. -/
def stillHeld (held back : List ℕ) : List ℕ := held.filter fun q => q ∉ back

/-- What a call returns joins the held pages, what it gives back leaves them. -/
def Tracked.next (t : Tracked) (op : PageOp) : Tracked :=
  match op with
  | .alloc =>
    let r := mmPageAlloc t.pmm
    ⟨r.1, if r.2 = 0 then t.held else t.held ++ pagesFrom r.2 1⟩
  | .allocN n =>
    let r := mmPageAllocN t.pmm n
    ⟨r.1, if r.2 = 0 then t.held else t.held ++ pagesFrom r.2 n⟩
  | .free pa => ⟨(mmPageFree t.pmm pa).1, stillHeld t.held (givenBack t.pmm op)⟩
  | .freeN pa n => ⟨(mmPageFreeN t.pmm pa n).1, stillHeld t.held (givenBack t.pmm op)⟩

/-- A multi-page free names pages of managed RAM only. -/
def FreesInside (g : Pmm) : PageOp → Prop
  | .freeN pa n => ∀ i < n, g.paInRange (pa + i * pageSize)
  | _ => True

def PageStep (t : Tracked) (op : PageOp) (u : Tracked) : Prop :=
  FreesInside t.pmm op ∧ u = t.next op

/-- The counter, the bits past the last page and the hint agree with the bitmap. -/
structure PagesConsistent (g : Pmm) : Prop where
  counter : g.freePages =
    ((Finset.range g.totalPages).filter fun i => bmTest g.bitmap i = false).card
  tail : ∀ i, g.totalPages ≤ i → i < g.bitmapWords * bmBits → bmTest g.bitmap i = false
  hint : g.nextHint < g.totalPages

/-- If the allocation `r` of `n` pages succeeded, it took `n` free pages inside managed RAM. -/
def HandsOut (g : Pmm) (n : ℕ) (r : Pmm × ℕ) : Prop :=
  r.2 ≠ 0 → g.ramBase ≤ r.2 ∧ r.2 + n * pageSize ≤ g.ramEnd ∧ Taken g r.1 r.2 n

/-- The held pages are distinct and all allocated. -/
structure TrackedOk (t : Tracked) : Prop where
  pmm : PmmOk t.pmm
  base_pos : 0 < t.pmm.ramBase
  nodup : t.held.Nodup
  allocated : ∀ q ∈ t.held, mmPageIsAllocated t.pmm q = true

theorem mmPageIsAllocated_iff {g : Pmm} (h : PmmOk g) (q : ℕ) :
    mmPageIsAllocated g q = true ↔
      ∃ idx < g.totalPages, q = g.ramBase + idx * pageSize ∧ bmTest g.bitmap idx = true := by
  unfold mmPageIsAllocated
  constructor
  · intro hq
    split at hq
    next => exact absurd hq (by decide)
    next hv =>
      rw [not_or, not_not, not_not] at hv
      obtain ⟨idx, hi, hpa, hidx⟩ := h.page_of_pa hv.1 hv.2
      exact ⟨idx, hi, hpa, hidx ▸ hq⟩
  · rintro ⟨idx, hi, rfl, hb⟩
    have hal : paAligned (g.ramBase + idx * pageSize) := by
      have := h.base_aligned
      rw [paAligned_iff]
      unfold pageSize at *
      omega
    have hin : g.paInRange (g.ramBase + idx * pageSize) := by
      have h1 := h.ramEnd
      refine ⟨by omega, ?_⟩
      unfold pageSize at *
      omega
    simp [hal, hin, h.paToIdx hi, hb]

theorem pagesFrom_nodup (pa n : ℕ) : (pagesFrom pa n).Nodup := by
  refine List.Nodup.map (fun i j hij => ?_) List.nodup_range
  unfold pageSize at hij
  omega

theorem mem_pagesFrom {pa n q : ℕ} : q ∈ pagesFrom pa n ↔ ∃ i < n, pa + i * pageSize = q := by
  simp [pagesFrom]

theorem takeWhile_pagesFrom {p : ℕ → Bool} {pa n c : ℕ} (hc : c ≤ n)
    (hp : ∀ i < c, p (pa + i * pageSize) = true) (hstop : c < n → p (pa + c * pageSize) = false) :
    (pagesFrom pa n).takeWhile p = pagesFrom pa c := by
  obtain ⟨d, rfl⟩ := Nat.exists_eq_add_of_le hc
  have hall : ∀ q ∈ pagesFrom pa c, p q = true := by
    intro q hq
    obtain ⟨i, hi, rfl⟩ := mem_pagesFrom.mp hq
    exact hp i hi
  have hsplit : pagesFrom pa (c + d) = pagesFrom pa c ++
      (List.range d).map fun i => pa + (c + i) * pageSize := by
    simp [pagesFrom, List.range_add]
  rw [hsplit, List.takeWhile_append_of_pos hall]
  cases d with
  | zero => simp
  | succ d =>
    have := hstop (by omega)
    simp [List.range_succ_eq_map, this]

section Steps
variable {t u : Tracked}

theorem TrackedOk.taken (h : TrackedOk t) {g : Pmm} {pa n : ℕ} (hok : PmmOk g)
    (ht : Taken t.pmm g pa n) : TrackedOk ⟨g, t.held ++ pagesFrom pa n⟩ := by
  obtain ⟨hreg, idx, hpa, hfit, hfree, hbits⟩ := ht
  have hnew (q : ℕ) (hq : q ∈ pagesFrom pa n) :
      ∃ j, idx ≤ j ∧ j < idx + n ∧ q = t.pmm.ramBase + j * pageSize := by
    obtain ⟨i, hi, rfl⟩ := mem_pagesFrom.mp hq
    exact ⟨idx + i, by omega, by omega, by rw [hpa]; ring⟩
  refine ⟨hok, hreg.ramBase ▸ h.base_pos, ?_, fun q hq => ?_⟩
  · refine h.nodup.append (pagesFrom_nodup pa n) fun q hq hq' => ?_
    -- a held page's bit is set, a new page's was clear
    obtain ⟨i, -, hqi, hb⟩ := (mmPageIsAllocated_iff h.pmm q).mp (h.allocated q hq)
    obtain ⟨j, h1, h2, hqj⟩ := hnew q hq'
    have hij : i = j := by
      unfold pageSize at *
      omega
    rw [hij, hfree j h1 h2] at hb
    exact absurd hb (by decide)
  · rw [mmPageIsAllocated_iff hok, hreg.totalPages, hreg.ramBase]
    dsimp only at hq ⊢
    rcases List.mem_append.mp hq with hq | hq
    · obtain ⟨i, hi, hqi, hb⟩ := (mmPageIsAllocated_iff h.pmm q).mp (h.allocated q hq)
      exact ⟨i, hi, hqi, by rw [hbits, hb, Bool.true_or]⟩
    · obtain ⟨j, h1, h2, hqj⟩ := hnew q hq
      exact ⟨j, by omega, hqj, by simp [hbits, h1, h2]⟩

theorem TrackedOk.freed (h : TrackedOk t) {g : Pmm} (hok : PmmOk g) (hreg : SameRegion t.pmm g)
    {back : List ℕ} (hbits : ∀ j < t.pmm.totalPages, bmTest g.bitmap j =
      (bmTest t.pmm.bitmap j && decide (t.pmm.ramBase + j * pageSize ∉ back))) :
    TrackedOk ⟨g, stillHeld t.held back⟩ := by
  refine ⟨hok, hreg.ramBase ▸ h.base_pos, h.nodup.filter _, fun q hq => ?_⟩
  rw [mmPageIsAllocated_iff hok, hreg.totalPages, hreg.ramBase]
  obtain ⟨hq, hback⟩ := List.mem_filter.mp hq
  obtain ⟨i, hi, rfl, hb⟩ := (mmPageIsAllocated_iff h.pmm q).mp (h.allocated q hq)
  refine ⟨i, hi, rfl, ?_⟩
  rw [hbits i hi, hb, Bool.true_and]
  exact hback

theorem TrackedOk.unchanged (h : TrackedOk t) {back : List ℕ} (hb : back = []) :
    TrackedOk ⟨t.pmm, stillHeld t.held back⟩ := by
  subst hb
  exact h.freed h.pmm (.refl _) fun j _ => by simp

theorem free_trackedOk (h : TrackedOk t) (pa : ℕ) : TrackedOk (t.next (.free pa)) := by
  simp only [Tracked.next, givenBack]
  rcases mmPageFree_cases h.pmm pa with ⟨hg, herr, -⟩ | ⟨hokr, hok, hreg, idx, hi, hpa, -, hbits⟩
  · rw [hg]
    exact h.unchanged (if_neg herr)
  · refine h.freed hok hreg fun j hj => ?_
    rw [hbits, if_pos hokr]
    congr 2
    rw [hpa, List.mem_singleton]
    unfold pageSize
    apply propext
    omega

/-- The pages a multi-page free inside managed RAM gives back, and the bits it clears. -/
theorem freeLoop_givenBack (h : TrackedOk t) {pa n : ℕ} (hin : FreesInside t.pmm (.freeN pa n))
    (ha : paAligned pa) (hr : t.pmm.paInRange pa) :
    PmmOk (t.pmm.freeLoop pa 0 n).1 ∧ SameRegion t.pmm (t.pmm.freeLoop pa 0 n).1 ∧
      ∀ j < t.pmm.totalPages, bmTest (t.pmm.freeLoop pa 0 n).1.bitmap j =
        (bmTest t.pmm.bitmap j &&
          decide (t.pmm.ramBase + j * pageSize ∉ givenBack t.pmm (.freeN pa n))) := by
  obtain ⟨idx, hi, hpa, hidx⟩ := h.pmm.page_of_pa ha hr
  have hfit : idx + 0 + n ≤ t.pmm.totalPages := by
    rcases Nat.eq_zero_or_pos n with h0 | hn
    · omega
    · have := (hin (n - 1) (by omega)).2
      rw [h.pmm.ramEnd, hpa] at this
      unfold pageSize at this
      omega
  obtain ⟨c, hc, hok, hreg, hset, hstop, hbits⟩ := freeLoop_spec n h.pmm hfit
  rw [← hpa] at hok hreg hbits
  have hpage (i : ℕ) : pa + i * pageSize = t.pmm.ramBase + (idx + i) * pageSize := by
    rw [hpa]
    ring
  have hback : givenBack t.pmm (.freeN pa n) = pagesFrom pa c := by
    rw [givenBack, if_pos ⟨ha, hr⟩]
    refine takeWhile_pagesFrom hc (fun i hic => ?_) fun hcn => ?_
    · rw [hpage, mmPageIsAllocated_iff h.pmm]
      exact ⟨idx + i, by omega, rfl, hset _ (by omega) (by omega)⟩
    · rw [Bool.eq_false_iff, ne_eq, hpage, mmPageIsAllocated_iff h.pmm]
      rintro ⟨j, -, hj, hb⟩
      have hjc : j = idx + 0 + c := by
        unfold pageSize at hj
        omega
      rw [hjc, hstop hcn] at hb
      exact absurd hb (by decide)
  refine ⟨hok, hreg, fun j _ => ?_⟩
  rw [hbits, hback]
  congr 2
  apply propext
  rw [mem_pagesFrom]
  constructor
  · rintro hj ⟨i, hic, hij⟩
    rw [hpage] at hij
    unfold pageSize at hij
    omega
  · rintro hj ⟨h1, h2⟩
    exact hj ⟨j - idx, by omega, by rw [hpage, show idx + (j - idx) = j by omega]⟩

theorem freeN_trackedOk (h : TrackedOk t) {pa n : ℕ} (hin : FreesInside t.pmm (.freeN pa n)) :
    TrackedOk (t.next (.freeN pa n)) := by
  simp only [Tracked.next, mmPageFreeN]
  by_cases ha : paAligned pa
  swap
  · rw [if_pos ha]
    exact h.unchanged (by simp [givenBack, ha])
  by_cases hr : t.pmm.paInRange pa
  swap
  · rw [if_neg (not_not.mpr ha), if_pos hr]
    exact h.unchanged (by simp [givenBack, hr])
  rw [if_neg (not_not.mpr ha), if_neg (not_not.mpr hr)]
  obtain ⟨hok, hreg, hbits⟩ := freeLoop_givenBack h hin ha hr
  split
  · have hlow := Pmm.lowerHint_region (t.pmm.freeLoop pa 0 n).1 (t.pmm.paToIdx pa)
    refine h.freed ?_ (hreg.trans hlow) fun j hj => ?_
    · obtain ⟨idx, hi, -, hidx⟩ := h.pmm.page_of_pa ha hr
      exact hok.lowerHint (by rw [hidx, hreg.totalPages]; exact hi)
    · rw [Pmm.lowerHint_bitmap]
      exact hbits j hj
  · exact h.freed hok hreg hbits

theorem allocN_trackedOk (h : TrackedOk t) (n : ℕ) : TrackedOk
    ⟨(mmPageAllocN t.pmm n).1, if (mmPageAllocN t.pmm n).2 = 0 then t.held
      else t.held ++ pagesFrom (mmPageAllocN t.pmm n).2 n⟩ := by
  rcases mmPageAllocN_cases h.pmm n with ⟨hnone, -⟩ | ⟨-, hok, htaken⟩
  · rw [hnone]
    exact h
  · rw [if_neg (htaken.ne_zero h.base_pos)]
    exact h.taken hok htaken

theorem pageStep_ok {op : PageOp} (h : TrackedOk t) (hs : PageStep t op u) : TrackedOk u := by
  obtain ⟨hin, rfl⟩ := hs
  cases op with
  | alloc =>
    simp only [Tracked.next, mmPageAlloc_eq]
    exact allocN_trackedOk h 1
  | allocN n => exact allocN_trackedOk h n
  | free pa => exact free_trackedOk h pa
  | freeN pa n => exact freeN_trackedOk h hin

end Steps

theorem PmmOk.consistent {g : Pmm} (h : PmmOk g) : PagesConsistent g := ⟨h.free, h.tail, h.hint⟩

theorem PmmOk.handsOut {g : Pmm} (h : PmmOk g) (n : ℕ) : HandsOut g n (mmPageAllocN g n) := by
  intro hne
  rcases mmPageAllocN_cases h n with ⟨hnone, -⟩ | ⟨-, -, htaken⟩
  · rw [hnone] at hne
    exact absurd rfl hne
  · have ⟨_, idx, hpa, hfit, _⟩ := htaken
    have := h.ramEnd
    refine ⟨by omega, ?_, htaken⟩
    rw [hpa, this]
    unfold pageSize
    omega

theorem PmmOk.alloc_zero {g : Pmm} (h : PmmOk g) (hpos : 0 < g.ramBase)
    (h0 : (mmPageAlloc g).2 = 0) :
    ∀ i < g.totalPages, bmTest g.bitmap i = true := by
  rw [mmPageAlloc_eq] at h0
  rcases mmPageAllocN_cases h 1 with ⟨-, hempty⟩ | ⟨-, -, htaken⟩
  · intro i hi
    have hmem : i ∉ g.freeSet := by
      rw [hempty rfl]
      exact Finset.notMem_empty i
    simpa [Pmm.freeSet, hi] using hmem
  · exact absurd h0 (htaken.ne_zero hpos)

/-- After any run from `mm_init` on, the allocator is consistent, every allocation hands out
free pages of managed RAM, and the pages handed out and not yet freed are distinct. -/
theorem pageRun_consistent {kernelPhysBase memBase memSize reservedEnd heapVa : ℕ}
    {memory : ℕ → ℕ} {g : Pmm} {ops : List PageOp} {t : Tracked}
    (hi : mmInit kernelPhysBase memBase memSize reservedEnd heapVa memory = some g)
    (hpos : 0 < memBase) (hal : memBase % pageSize = 0) (hlt : memBase < 4294967296)
    (hr : Run PageStep ⟨g, []⟩ ops t) :
    PagesConsistent t.pmm ∧
    HandsOut t.pmm 1 (mmPageAlloc t.pmm) ∧ (∀ n, HandsOut t.pmm n (mmPageAllocN t.pmm n)) ∧
    ((mmPageAlloc t.pmm).2 = 0 → ∀ i < t.pmm.totalPages, bmTest t.pmm.bitmap i = true) ∧
    t.held.Nodup ∧ ∀ q ∈ t.held, mmPageIsAllocated t.pmm q = true := by
  obtain ⟨hok, hbase, -⟩ := mmInit_ok hi
  have hbase0 : 0 < g.ramBase := by
    rw [hbase, alignUp_page]
    unfold u32 pageSize at *
    omega
  have hinit : TrackedOk ⟨g, []⟩ := ⟨hok, hbase0, List.nodup_nil, by simp⟩
  have ht : TrackedOk t := hr.preserves (fun _ _ _ h hs => pageStep_ok h hs) hinit
  refine ⟨ht.pmm.consistent, ?_, ht.pmm.handsOut, ht.pmm.alloc_zero ht.base_pos, ht.nodup,
    ht.allocated⟩
  rw [mmPageAlloc_eq]
  exact ht.pmm.handsOut 1

/-- Four megabytes of RAM at `0x40000000`: one page, three pages, and the one page back. -/
theorem pageRun_consistent_fourMb : ∃ g,
    mmInit 0x40200000 0x40000000 0x400000 0x40022000 0xC0100000 (fun _ => 0) = some g ∧
    PagesConsistent ((((⟨g, []⟩ : Tracked).next .alloc).next (.allocN 3)).next
      (.free 0x40000000)).pmm := by
  have hsome : (mmInit 0x40200000 0x40000000 0x400000 0x40022000 0xC0100000
    (fun _ => 0)).isSome := by decide +kernel
  obtain ⟨g, hg⟩ := Option.isSome_iff_exists.mp hsome
  have hrun : Run PageStep ⟨g, []⟩ [.alloc, .allocN 3, .free 0x40000000]
      ((((⟨g, []⟩ : Tracked).next .alloc).next (.allocN 3)).next (.free 0x40000000)) :=
    .cons ⟨trivial, rfl⟩ (.cons ⟨trivial, rfl⟩ (.single ⟨trivial, rfl⟩))
  exact ⟨g, hg, (pageRun_consistent hg (by decide) (by decide) (by decide) hrun).1⟩

end Leg

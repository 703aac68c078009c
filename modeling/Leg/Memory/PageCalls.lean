import Leg.Memory.PageAllocatorInvariant

/-! Runs of all five calls of the page allocator, with any arguments. A multi-page free may
run past the end of RAM and an aligned allocation may reach behind it, so the counter and the
bitmap need not agree any more; what every run keeps is the shape of the allocator. -/
namespace Leg
open Runs

inductive PageCall where
  | alloc
  | allocN (n : ℕ)
  | allocAligned (n alignPages : ℕ)
  | free (pa : ℕ)
  | freeN (pa n : ℕ)

/-- The allocator after a call, `none` if the call does not return. -/
def PageCall.next (g : Pmm) : PageCall → Option Pmm
  | .alloc => some (mmPageAlloc g).1
  | .allocN n => some (mmPageAllocN g n).1
  | .allocAligned n alignPages => (mmPageAllocAligned g n alignPages).map Prod.fst
  | .free pa => some (mmPageFree g pa).1
  | .freeN pa n => some (mmPageFreeN g pa n).1

def CallStep (g : Pmm) (c : PageCall) (k : Pmm) : Prop := c.next g = some k

/-- What `mm_init` can leave, whatever the machine's memory holds. -/
def PmmBooted (g : Pmm) : Prop :=
  ∃ kernelPhysBase memBase memSize reservedEnd heapVa memory, (∀ i, memory i < 2 ^ 32) ∧
    mmInit kernelPhysBase memBase memSize reservedEnd heapVa memory = some g

/-- The states of the allocator that some run of calls from `mm_init` on ends in. -/
def PmmReachable : Pmm → Prop := Reachable PmmBooted CallStep

/-- The pages of the whole address space; an address past RAM still names one of their bits. -/
def allPages : ℕ := 2 ^ 20

/-- What every sequence of calls keeps: the region, words of 32 bits, a hint inside RAM, and
a counter that no more bits are clear for. -/
structure PmmShape (g : Pmm) : Prop where
  region : PmmRegion g
  word_lt : ∀ i, g.bitmap i < 2 ^ 32
  hint : g.nextHint < g.totalPages
  free_le : g.freePages ≤ (Bitmap.clear (bmTest g.bitmap) allPages).card

theorem PmmShape.free_le_allPages {g : Pmm} (h : PmmShape g) : g.freePages ≤ allPages := by
  refine h.free_le.trans ((Finset.card_filter_le _ _).trans ?_)
  rw [Finset.card_range]

section Words
variable {bm : ℕ → ℕ}

theorem bmSet_word_lt (h : ∀ k, bm k < 2 ^ 32) (i k : ℕ) : bmSet bm i k < 2 ^ 32 :=
  bmSet_lt (fun k _ => h k) i k (Nat.lt_succ_self k)

theorem bmClear_word_lt (h : ∀ k, bm k < 2 ^ 32) (i k : ℕ) : bmClear bm i k < 2 ^ 32 :=
  bmClear_lt (fun k _ => h k) i k (Nat.lt_succ_self k)

theorem card_clear_bmSet (bm : ℕ → ℕ) (i total : ℕ) :
    (Bitmap.clear (bmTest bm) total).card ≤
      (Bitmap.clear (bmTest (bmSet bm i)) total).card + 1 := by
  refine (Finset.card_le_card ?_).trans (Finset.card_insert_le i _)
  intro j hj
  obtain ⟨hjt, hb⟩ := Bitmap.mem_clear.mp hj
  by_cases hji : j = i
  · exact hji ▸ Finset.mem_insert_self j _
  · exact Finset.mem_insert_of_mem (Bitmap.mem_clear.mpr ⟨hjt, by simp [hb, hji]⟩)

theorem card_clear_foldl (is : List ℕ) (bm : ℕ → ℕ) (total : ℕ) :
    (Bitmap.clear (bmTest bm) total).card ≤
      (Bitmap.clear (bmTest (is.foldl bmSet bm)) total).card + is.length := by
  induction is generalizing bm with
  | nil => exact le_refl _
  | cons i is ih =>
    have h1 := card_clear_bmSet bm i total
    have h2 := ih (bmSet bm i)
    rw [List.foldl_cons, List.length_cons]
    omega

theorem bmSetRun_eq_foldl (bm : ℕ → ℕ) (idx n : ℕ) :
    bmSetRun bm idx n = ((List.range n).map fun i => idx + i).foldl bmSet bm := by
  rw [bmSetRun, List.foldl_map]

theorem bmSet_foldl_word_lt (is : List ℕ) (h : ∀ k, bm k < 2 ^ 32) (k : ℕ) :
    is.foldl bmSet bm k < 2 ^ 32 := by
  induction is generalizing bm with
  | nil => exact h k
  | cons i is ih => exact ih fun k => bmSet_word_lt h i k

end Words

section Boot
variable {g : Pmm}

theorem reservePage_word_lt (h : ∀ k, g.bitmap k < 2 ^ 32) (pa k : ℕ) :
    (g.reservePage pa).bitmap k < 2 ^ 32 := by
  unfold Pmm.reservePage
  dsimp only
  split
  · exact h k
  · exact bmSet_word_lt h _ k

theorem reserveRange_word_lt (h : ∀ k, g.bitmap k < 2 ^ 32) (base fin k : ℕ) :
    (g.reserveRange base fin).bitmap k < 2 ^ 32 := by
  unfold Pmm.reserveRange
  dsimp only
  generalize (if alignDown base pageSize < g.ramBase then g.ramBase
    else alignDown base pageSize) = lo
  generalize List.range _ = pages
  induction pages generalizing g with
  | nil => exact h k
  | cons i pages ih => exact ih fun k => reservePage_word_lt h _ k

theorem PmmBooted.shape (h : PmmBooted g) : PmmShape g := by
  obtain ⟨kernelPhysBase, memBase, memSize, reservedEnd, heapVa, memory, hm, hi⟩ := h
  obtain ⟨hok, -⟩ := mmInit_ok hi
  refine ⟨hok.region, ?_, hok.hint, ?_⟩
  swap
  · rw [hok.free]
    refine Finset.card_le_card (Finset.filter_subset_filter _ (Finset.range_subset_range.mpr ?_))
    exact hok.total_lt.le
  rw [mmInit_eq] at hi
  split at hi
  next =>
    rw [← Option.some.inj hi]
    refine fun k => reserveRange_word_lt (reserveRange_word_lt (fun i => ?_) _ _) _ _ k
    simp only [Pmm.start]
    split
    · decide
    · exact hm i
  next => exact absurd hi (by simp)

end Boot

section Calls
variable {g k : Pmm}

theorem PmmShape.taken (h : PmmShape g) (is : List ℕ) (next : ℕ) :
    PmmShape { g with
      bitmap := is.foldl bmSet g.bitmap
      freePages := g.freePages - is.length
      nextHint := next % g.totalPages } := by
  refine ⟨h.region.of_same ⟨rfl, rfl, rfl, rfl, rfl⟩, bmSet_foldl_word_lt is h.word_lt,
    Nat.mod_lt _ h.region.pages_pos, ?_⟩
  have h1 := card_clear_foldl is g.bitmap allPages
  have h2 := h.free_le
  dsimp only
  omega

theorem mmPageAllocN_shape (h : PmmShape g) (n : ℕ) : PmmShape (mmPageAllocN g n).1 := by
  unfold mmPageAllocN
  split
  · exact h
  split
  · exact h
  dsimp only
  split
  · exact h
  · have := h.taken ((List.range n).map fun i =>
      bmFindFreeRun g.bitmap g.totalPages g.nextHint n + i)
      (bmFindFreeRun g.bitmap g.totalPages g.nextHint n + n)
    rwa [← bmSetRun_eq_foldl, List.length_map, List.length_range] at this

theorem mmPageAllocAligned_shape (h : PmmShape g) {n alignPages : ℕ} {r : Pmm × ℕ}
    (hr : mmPageAllocAligned g n alignPages = some r) : PmmShape r.1 := by
  unfold mmPageAllocAligned at hr
  split at hr
  · exact Option.some.inj hr ▸ h
  split at hr
  · exact Option.some.inj hr ▸ h
  obtain ⟨found, -, rfl⟩ := Option.map_eq_some_iff.mp hr
  cases found with
  | none => exact h
  | some idx =>
    have := h.taken (runBits idx n) (u32 (idx + n))
    rwa [runBits, List.length_map, List.length_range] at this

theorem Pmm.release_region (g : Pmm) (idx : ℕ) : SameRegion g (g.release idx) :=
  ⟨rfl, rfl, rfl, rfl, rfl⟩

theorem PmmShape.release (h : PmmShape g) {idx : ℕ} (hi : idx < allPages)
    (hb : bmTest g.bitmap idx = true) : PmmShape (g.release idx) := by
  refine ⟨h.region.of_same (g.release_region idx), bmClear_word_lt h.word_lt idx, h.hint, ?_⟩
  have hcl := bmTest_bmClear (i := idx) (h.word_lt _)
  have hcard := Bitmap.card_clear_unset (bmTest (bmClear g.bitmap idx)) hi hb
    (fun j _ => by rw [hcl]; cases bmTest g.bitmap j <;> simp)
  have := h.free_le
  simp only [Pmm.release]
  omega

theorem PmmShape.lowerHint (h : PmmShape g) (idx : ℕ) : PmmShape (g.lowerHint idx) := by
  have := h.hint
  unfold Pmm.lowerHint
  split
  · exact ⟨h.region.of_same ⟨rfl, rfl, rfl, rfl, rfl⟩, h.word_lt, by dsimp only; omega, h.free_le⟩
  · exact h

theorem paToIdx_lt (g : Pmm) (pa : ℕ) : g.paToIdx pa < allPages := by
  have := u32_lt (pa + (4294967296 - g.ramBase))
  unfold Pmm.paToIdx wsub pageShift allPages
  rw [Nat.shiftRight_eq_div_pow]
  omega

theorem mmPageFree_shape (h : PmmShape g) (pa : ℕ) : PmmShape (mmPageFree g pa).1 := by
  unfold mmPageFree
  split
  · exact h
  split
  · exact h
  dsimp only
  split
  · exact h
  next hb => exact (h.release (paToIdx_lt g pa) (by simpa using hb)).lowerHint _

theorem freeLoop_shape (pa : ℕ) (n : ℕ) (h : PmmShape g) (i : ℕ) :
    PmmShape (g.freeLoop pa i n).1 := by
  induction n generalizing g i with
  | zero => exact h
  | succ n ih =>
    rw [Pmm.freeLoop]
    split
    · exact h
    next hb => exact ih (h.release (paToIdx_lt g _) (by simpa using hb)) (i + 1)

theorem mmPageFreeN_shape (h : PmmShape g) (pa n : ℕ) : PmmShape (mmPageFreeN g pa n).1 := by
  unfold mmPageFreeN
  split
  · exact h
  split
  · exact h
  dsimp only
  split
  · exact (freeLoop_shape pa n h 0).lowerHint _
  · exact freeLoop_shape pa n h 0

theorem callStep_shape {c : PageCall} (h : PmmShape g) (hs : CallStep g c k) : PmmShape k := by
  unfold CallStep at hs
  cases c with
  | alloc =>
    rw [PageCall.next, mmPageAlloc_eq] at hs
    exact Option.some.inj hs ▸ mmPageAllocN_shape h 1
  | allocN n => exact Option.some.inj hs ▸ mmPageAllocN_shape h n
  | allocAligned n alignPages =>
    obtain ⟨r, hr, rfl⟩ := Option.map_eq_some_iff.mp hs
    exact mmPageAllocAligned_shape h hr
  | free pa => exact Option.some.inj hs ▸ mmPageFree_shape h pa
  | freeN pa n => exact Option.some.inj hs ▸ mmPageFreeN_shape h pa n

end Calls

theorem PmmReachable.shape {g : Pmm} (h : PmmReachable g) : PmmShape g := by
  obtain ⟨s, as, hs, hrun⟩ := h
  exact hrun.preserves (fun _ _ _ h hs => callStep_shape h hs) hs.shape

/-- The allocator of a machine with `memSize` bytes of zeroed RAM at `memBase`, the bitmap first
in it and the heap behind it, after the calls `cs`. -/
def bootAndCall (memBase memSize : ℕ) (cs : List PageCall) : Option Pmm :=
  (mmInit 0x40200000 memBase memSize memBase 0xC0100000 fun _ => 0).bind fun g =>
    execute (fun _ _ => true) (fun g c => PageCall.next g c) g cs

theorem exists_reachable (memBase memSize : ℕ) (cs : List PageCall) (P : Pmm → Prop)
    [DecidablePred P] (h : (bootAndCall memBase memSize cs).any (fun g => decide (P g)) = true) :
    ∃ g, PmmReachable g ∧ P g := by
  obtain ⟨g, hg, hp⟩ := (Option.any_eq_true _ _).mp h
  obtain ⟨s, hs, hrun⟩ := Option.bind_eq_some_iff.mp hg
  have hboot : PmmBooted s := ⟨_, _, _, _, _, _, fun _ => by decide, hs⟩
  exact ⟨g, ⟨s, cs, hboot, Run.of_execute (fun _ _ _ _ hs => hs) hrun⟩, of_decide_eq_true hp⟩

end Leg

import Leg.Lib.Runs
import Leg.Memory.KernelHeapFree

/-! Runs of the kernel heap's calls, and of its clients' writes to the bytes they got. Beside
the heap goes the list of the live allocations, which no call reads. -/
namespace Leg
open Tiling Memory Runs

inductive HeapOp where
  | malloc (size : ℕ)
  | zalloc (size : ℕ)
  | aligned (size alignment : ℕ)
  | free (c : Client)
  | write (a : ℕ) (v : UInt8)

/-- The heap with the allocations its clients hold. -/
structure HeapState where
  heap : KHeap
  live : List Client

/-- A pointer that is not null joins the live ones. -/
def HeapState.gain (st : HeapState) (size : ℕ) (r : KHeap × ℕ) : HeapState :=
  ⟨r.1, if r.2 = 0 then st.live else ⟨r.2, size⟩ :: st.live⟩

/-- One call or write; `none` if an assertion of the heap fails. -/
def HeapState.next (st : HeapState) : HeapOp → Option HeapState
  | .malloc size => (st.heap.kmalloc size).map (st.gain size)
  | .zalloc size => (st.heap.kzalloc size).map (st.gain size)
  | .aligned size alignment => (st.heap.kmallocAligned size alignment).map (st.gain size)
  | .free c => (st.heap.kfree c.ptr).map fun s => ⟨s, st.live.erase c⟩
  | .write a v => some { st with heap := { st.heap with mem := Function.update st.heap.mem a v } }

/-- Sizes and alignments are at most the region's, frees are of live pointers, and clients
write inside the bytes they asked for. -/
def HeapState.Allowed (st : HeapState) : HeapOp → Prop
  | .malloc size => size ≤ kheapSize
  | .zalloc size => size ≤ kheapSize
  | .aligned size alignment => size ≤ kheapSize ∧ alignment ≤ kheapSize
  | .free c => c ∈ st.live
  | .write a _ => ∃ c ∈ st.live, c.ptr ≤ a ∧ a < c.ptr + c.bytes

instance (st : HeapState) (op : HeapOp) : Decidable (st.Allowed op) :=
  match op with
  | .malloc size => inferInstanceAs (Decidable (size ≤ kheapSize))
  | .zalloc size => inferInstanceAs (Decidable (size ≤ kheapSize))
  | .aligned size alignment =>
    inferInstanceAs (Decidable (size ≤ kheapSize ∧ alignment ≤ kheapSize))
  | .free c => inferInstanceAs (Decidable (c ∈ st.live))
  | .write a _ => inferInstanceAs (Decidable (∃ c ∈ st.live, c.ptr ≤ a ∧ a < c.ptr + c.bytes))

def HeapStep (st : HeapState) (op : HeapOp) (st' : HeapState) : Prop :=
  st.Allowed op ∧ st.next op = some st'

/-- The headers `hs` follow one another from `a` to `e`. -/
def Tiles (s : KHeap) : (a : ℕ) → List ℕ → (e : ℕ) → Prop
  | a, [], e => a = e
  | a, h :: hs, e => h = a ∧ Tiles s (h + hdrBytes + s.size h) hs e

/-- Following `next_free` from `cur` visits the headers `fs` and ends in `e`. -/
def FreeChain (s : KHeap) : (cur : ℕ) → List ℕ → (e : ℕ) → Prop
  | cur, [], e => cur = e
  | cur, f :: fs, e => cur = f ∧ FreeChain s (s.nextFree f) fs e

/-- The block with the header `h` is the one `kfree` finds for the client. -/
structure Owns (s : KHeap) (h : ℕ) (c : Client) : Prop where
  magic : s.magic h = kheapMagicUsed
  resolve : s.resolve c.ptr = h + hdrBytes
  lower : h + hdrBytes ≤ c.ptr
  upper : c.ptr + c.bytes ≤ h + hdrBytes + s.size h

/-- What the memory of the heap says, header by header. -/
structure HeapWf (s : KHeap) (live : List Client) (hdrs : List ℕ) : Prop where
  tiles : Tiles s s.base hdrs (s.base + s.capacity)
  marked : ∀ h ∈ hdrs, s.magic h = kheapMagicFree ∨ s.magic h = kheapMagicUsed
  freeList : FreeChain s s.freeList (hdrs.filter fun h => s.magic h = kheapMagicFree) 0
  increasing : (hdrs.filter fun h => s.magic h = kheapMagicFree).Pairwise (· < ·)
  separated : hdrs.IsChain fun h k => ¬ (s.magic h = kheapMagicFree ∧ s.magic k = kheapMagicFree)
  used : s.used = ((hdrs.filter fun h => s.magic h = kheapMagicUsed).map s.size).sum
  inside : ∀ c ∈ live, s.base ≤ c.ptr ∧ c.ptr + c.bytes ≤ s.base + s.capacity
  disjoint : live.Pairwise fun c d => c.ptr + c.bytes ≤ d.ptr ∨ d.ptr + d.bytes ≤ c.ptr
  owned : ∀ c ∈ live, ∃ h ∈ hdrs, Owns s h c
  ownBlock : live.Pairwise fun c d => s.resolve c.ptr ≠ s.resolve d.ptr

section Spelled
variable {s : KHeap} {bs : List (Block Client)} {a nx : ℕ}

theorem free_ne_used : kheapMagicFree ≠ kheapMagicUsed := by decide

theorem Header.magic_size {b : Block Client} (h : Header s.mem a b nx) :
    s.size a = b.size ∧ (s.magic a = kheapMagicFree ↔ b.owner.isNone = true) ∧
      (s.magic a = kheapMagicUsed ↔ b.owner.isNone = false) ∧
      (b.owner.isNone = true → s.nextFree a = nx) := by
  obtain ⟨hsize, hrest⟩ := h
  refine ⟨hsize, ?_⟩
  have hne := free_ne_used
  cases hb : b.owner with
  | none =>
    rw [hb] at hrest
    have hm : s.magic a = kheapMagicFree := hrest.1
    simp only [hm, hne, Option.isNone_none, Bool.true_eq_false, true_and, true_implies]
    exact hrest.2
  | some c =>
    rw [hb] at hrest
    have hm : s.magic a = kheapMagicUsed := hrest.1
    simp [hm, hne.symm]

theorem Laid.tiles (h : Laid s.mem a bs nx) :
    Tiles s a (addrs hdrBytes a bs) (a + span hdrBytes bs) := by
  induction bs generalizing a with
  | nil => rfl
  | cons b bs ih =>
    refine ⟨rfl, ?_⟩
    rw [h.1.magic_size.1, span_cons,
      show a + (hdrBytes + b.size + span hdrBytes bs) = a + hdrBytes + b.size + span hdrBytes bs by
        omega]
    exact ih h.2

theorem Laid.marked (h : Laid s.mem a bs nx) :
    ∀ x ∈ addrs hdrBytes a bs, s.magic x = kheapMagicFree ∨ s.magic x = kheapMagicUsed := by
  induction bs generalizing a with
  | nil => simp [addrs]
  | cons b bs ih =>
    intro x hx
    rcases List.mem_cons.mp hx with rfl | hx
    · obtain ⟨-, hfree, hused, -⟩ := h.1.magic_size
      rw [hfree, hused]
      cases b.owner.isNone <;> simp
    · exact ih h.2 x hx

theorem Laid.freeChain (h : Laid s.mem a bs nx) :
    FreeChain s (nextFree hdrBytes a bs nx)
      ((addrs hdrBytes a bs).filter fun x => s.magic x = kheapMagicFree) nx := by
  induction bs generalizing a with
  | nil => rfl
  | cons b bs ih =>
    obtain ⟨-, hfree, -, hnext⟩ := h.1.magic_size
    have ih := ih h.2
    cases hb : b.owner.isNone with
    | true =>
      rw [hb] at hfree hnext
      simp only [nextFree, addrs, hb, if_true, List.filter_cons, hfree.mpr rfl, decide_true]
      exact ⟨rfl, (hnext rfl).symm ▸ ih⟩
    | false =>
      rw [hb] at hfree
      have hno : s.magic a ≠ kheapMagicFree := fun hm => absurd (hfree.mp hm) (by decide)
      simpa only [nextFree, addrs, hb, Bool.false_eq_true, if_false, List.filter_cons, hno,
        decide_false] using ih

theorem Laid.usedSum (h : Laid s.mem a bs nx) :
    Tiling.usedSum bs =
      (((addrs hdrBytes a bs).filter fun x => s.magic x = kheapMagicUsed).map s.size).sum := by
  induction bs generalizing a with
  | nil => rfl
  | cons b bs ih =>
    obtain ⟨hsize, -, hused, -⟩ := h.1.magic_size
    rw [usedSum_cons, ih h.2]
    cases hb : b.owner.isNone with
    | true =>
      rw [hb] at hused
      have hno : s.magic a ≠ kheapMagicUsed := fun hm => absurd (hused.mp hm) (by decide)
      simp [addrs, hno]
    | false =>
      rw [hb] at hused
      simp [addrs, hused.mpr rfl, hsize]

theorem Laid.separated (h : Laid s.mem a bs nx) (hsep : Separated bs) :
    (addrs hdrBytes a bs).IsChain fun x y =>
      ¬ (s.magic x = kheapMagicFree ∧ s.magic y = kheapMagicFree) := by
  induction bs generalizing a with
  | nil => exact .nil
  | cons b bs ih =>
    rw [separated_cons] at hsep
    refine List.isChain_cons.mpr ⟨fun y hy hboth => ?_, ih h.2 hsep.2⟩
    cases bs with
    | nil => simp [addrs] at hy
    | cons d ds =>
      rw [addrs, List.head?_cons, Option.mem_some_iff] at hy
      subst hy
      have hb := h.1.magic_size.2.1.mp hboth.1
      have hd := h.2.1.magic_size.2.1.mp hboth.2
      simpa [hb, hd] using hsep.1 d (by simp)

/-- The block that holds a client. -/
theorem Laid.owner (h : Laid s.mem a bs nx) (hlow : s.base ≤ a)
    (hend : a + span hdrBytes bs ≤ s.base + s.capacity)
    (hfits : s.base + s.capacity < 4294967296) :
    ∀ c ∈ owners bs, ∃ x ∈ addrs hdrBytes a bs, Owns s x c ∧
      x + hdrBytes + s.size x ≤ a + span hdrBytes bs := by
  induction bs generalizing a with
  | nil => simp [owners]
  | cons b bs ih =>
    intro c hc
    rw [span_cons] at hend ⊢
    have hsize := h.1.magic_size.1
    obtain ⟨size, owner⟩ := b
    dsimp only at hsize hend ⊢
    have hcases : owner = some c ∨ c ∈ owners bs := by
      cases owner with
      | none => exact .inr hc
      | some d =>
        have hc' : c ∈ d :: owners bs := hc
        exact (List.mem_cons.mp hc').imp (fun he => congrArg some he.symm) id
    rcases hcases with rfl | hc
    · obtain ⟨-, hmagic, hnext, hholds⟩ := h.1
      refine ⟨a, List.mem_cons_self .., ⟨hmagic, ?_, hholds.lower, ?_⟩, by omega⟩
      · exact resolve_holds hnext hholds hlow (by dsimp only; omega) hfits
      · rw [hsize]
        exact hholds.upper
    · obtain ⟨x, hx, howns, hle⟩ := ih h.2 (by omega) (by dsimp only; omega) c hc
      dsimp only at hle
      exact ⟨x, List.mem_cons_of_mem _ hx, howns, by omega⟩

/-- Every used header belongs to an owner. -/
theorem Laid.used_owned (h : Laid s.mem a bs nx) (hlow : s.base ≤ a)
    (hend : a + span hdrBytes bs ≤ s.base + s.capacity)
    (hfits : s.base + s.capacity < 4294967296) :
    ∀ x ∈ addrs hdrBytes a bs, s.magic x = kheapMagicUsed → ∃ c ∈ owners bs, Owns s x c := by
  induction bs generalizing a with
  | nil => exact fun x hx => absurd hx (List.not_mem_nil)
  | cons b bs ih =>
    intro x hx hused
    rw [span_cons] at hend
    obtain ⟨hsize, -, hmagic, -⟩ := h.1.magic_size
    obtain ⟨size, owner⟩ := b
    rcases List.mem_cons.mp hx with rfl | hx
    · cases owner with
      | none => exact absurd (hmagic.mp hused) (by simp)
      | some c =>
        obtain ⟨-, hm, hnext, hholds⟩ := h.1
        dsimp only at hend
        refine ⟨c, List.mem_cons_self .., hm, ?_, hholds.lower, by rw [hsize]; exact hholds.upper⟩
        exact resolve_holds hnext hholds hlow (by dsimp only; omega) hfits
    · obtain ⟨c, hc, howns⟩ := ih h.2 (by omega) (by omega) x hx hused
      refine ⟨c, ?_, howns⟩
      cases owner with
      | none => exact hc
      | some d => exact List.mem_cons_of_mem _ hc

/-- Clients follow one another as their blocks do. -/
theorem Laid.owners_pairwise (h : Laid s.mem a bs nx) (hlow : s.base ≤ a)
    (hend : a + span hdrBytes bs ≤ s.base + s.capacity)
    (hfits : s.base + s.capacity < 4294967296) :
    (owners bs).Pairwise fun c d =>
      c.ptr + c.bytes ≤ d.ptr ∧ s.resolve c.ptr < s.resolve d.ptr := by
  induction bs generalizing a with
  | nil => exact .nil
  | cons b bs ih =>
    rw [span_cons] at hend
    have htail := ih h.2 (by omega) (by omega)
    obtain ⟨size, owner⟩ := b
    dsimp only at hend
    cases owner with
    | none => exact htail
    | some c =>
      obtain ⟨hsize, hmagic, hnext, hholds⟩ := h.1
      refine List.pairwise_cons.mpr ⟨fun d hd => ?_, htail⟩
      obtain ⟨x, hx, howns, -⟩ := h.2.owner (by omega) (by dsimp only; omega) hfits d hd
      have hax := le_of_mem_addrs hx
      have hup := hholds.upper
      have hres := resolve_holds hnext hholds hlow (by dsimp only; omega) hfits
      have hdl := howns.lower
      rw [hres, howns.resolve]
      dsimp only at hax hup ⊢
      unfold hdrBytes at *
      omega

theorem HeapRep.unowned {blocks : List (Block Client)} (h : HeapRep s blocks)
    (hsep : Separated blocks) (hnil : owners blocks = []) :
    blocks = [⟨s.capacity - hdrBytes, none⟩] := by
  have hcov := h.covers
  have hcap := h.capacity
  have hnone : ∀ b ∈ blocks, b.owner = none := List.filterMap_eq_nil_iff.mp hnil
  cases blocks with
  | nil => simp [kheapSize] at hcov
  | cons b bs =>
    cases bs with
    | nil =>
      rw [span_cons, span_nil] at hcov
      obtain ⟨size, owner⟩ := b
      have howner : owner = none := hnone _ (List.mem_cons_self ..)
      rw [howner, show size = s.capacity - hdrBytes by dsimp only at hcov; omega]
    | cons d ds =>
      have := (separated_cons.mp hsep).1 d rfl
      simp [hnone b (by simp), hnone d (by simp)] at this

/-- Blocks that represent the heap spell out its headers, and the used ones have owners. -/
theorem HeapOk.headers {live : List Client} (h : HeapOk s live) : ∃ hdrs, HeapWf s live hdrs ∧
    ∀ x ∈ hdrs, s.magic x = kheapMagicUsed → ∃ c ∈ live, Owns s x c := by
  obtain ⟨blocks, hrep, hsep, hperm⟩ := h
  have hcap := hrep.capacity
  have hend : s.base + span hdrBytes blocks = s.base + s.capacity := by
    rw [hrep.covers, hcap]
  have hfits : s.base + s.capacity < 4294967296 := hcap ▸ hrep.fits
  have howner := hrep.laid.owner (le_refl _) hend.le hfits
  have hpair := hrep.laid.owners_pairwise (le_refl _) hend.le hfits
  refine ⟨addrs hdrBytes s.base blocks, ⟨hend ▸ hrep.laid.tiles, hrep.laid.marked, ?_, ?_,
    hrep.laid.separated hsep, hrep.used.trans hrep.laid.usedSum, fun c hc => ?_, ?_,
    fun c hc => ?_, ?_⟩, fun x hx hused => ?_⟩
  · rw [hrep.freeList]
    exact hrep.laid.freeChain
  · exact (addrs_pairwise (by decide)).filter _
  · obtain ⟨x, hx, howns, hle⟩ := howner c (hperm.mem_iff.mpr hc)
    have := le_of_mem_addrs hx
    have := howns.lower
    have := howns.upper
    omega
  · exact hperm.pairwise (hpair.imp fun h => .inl h.1) fun h => h.symm
  · obtain ⟨x, hx, howns, -⟩ := howner c (hperm.mem_iff.mpr hc)
    exact ⟨x, hx, howns⟩
  · exact hperm.pairwise (hpair.imp fun h => Nat.ne_of_lt h.2) fun h => h.symm
  · obtain ⟨c, hc, howns⟩ := hrep.laid.used_owned (le_refl _) hend.le hfits x hx hused
    exact ⟨c, hperm.mem_iff.mp hc, howns⟩

theorem HeapOk.wf {live : List Client} (h : HeapOk s live) : ∃ hdrs, HeapWf s live hdrs :=
  h.headers.imp fun _ hd => hd.1

theorem HeapOk.ptrs_nodup {live : List Client} (h : HeapOk s live) :
    (live.map Client.ptr).Nodup := by
  obtain ⟨hdrs, hwf⟩ := h.wf
  refine List.pairwise_map.mpr (hwf.disjoint.imp_of_mem fun hc hd hdisj heq => ?_)
  have h1 := (h.mem_bounds hc).1
  have h2 := (h.mem_bounds hd).1
  omega

/-- The heap is one free block. -/
def OneFreeBlock (s : KHeap) : Prop :=
  s.freeList = s.base ∧ s.magic s.base = kheapMagicFree ∧ s.size s.base = s.capacity - hdrBytes ∧
    s.nextFree s.base = 0 ∧ s.used = 0

theorem HeapOk.oneFreeBlock (h : HeapOk s []) : OneFreeBlock s := by
  obtain ⟨blocks, hrep, hsep, hperm⟩ := h
  obtain rfl := hrep.unowned hsep hperm.eq_nil
  obtain ⟨⟨hsize, hmagic, hnext⟩, -⟩ := hrep.laid
  exact ⟨hrep.freeList, hmagic, hsize, hnext, hrep.used⟩

end Spelled

section Steps
variable {st st' : HeapState} {op : HeapOp} {mem : Memory} {heapVa : ℕ}

theorem kheapInit_heapOk (mem : Memory) (hpos : 0 < heapVa)
    (hfits : heapVa + kheapSize < 4294967296) : HeapOk (kheapInit mem heapVa) [] := by
  have hfree : kheapMagicFree < 4294967296 := by decide
  have hw : wsub kheapSize hdrBytes = kheapSize - 12 := by decide
  have hw32 : kheapSize - 12 < 4294967296 := by decide
  have h0 : (0 : ℕ) < 4294967296 := by decide
  refine ⟨[⟨kheapSize - 12, none⟩], ⟨hpos, rfl, hfits, ⟨⟨?_, ?_, ?_⟩, trivial⟩, rfl, rfl, rfl⟩, ?_,
    .nil⟩
  · simp only [kheapInit, KHeap.setMagic, KHeap.setSize, KHeap.setNextFree, hw]
    rw [load_store_of_disjoint _ _ (by omega), load_store_self _ _ hw32]
  · simp only [kheapInit, KHeap.setMagic, KHeap.setSize, KHeap.setNextFree]
    rw [load_store_of_disjoint _ _ (by omega), load_store_of_disjoint _ _ (by omega),
      load_store_self _ _ hfree]
  · simp only [kheapInit, KHeap.setMagic, KHeap.setSize, KHeap.setNextFree, nextFree]
    exact load_store_self _ _ h0
  · exact List.isChain_singleton _

theorem HeapOk.overwrite {s : KHeap} {live : List Client} (h : HeapOk s live) {c : Client}
    (hc : c ∈ live) {m : Memory}
    (hag : ∀ lo hi, hi ≤ c.ptr ∨ c.ptr + c.bytes ≤ lo → Agree s.mem m lo hi) :
    HeapOk { s with mem := m } live := by
  obtain ⟨blocks, hrep, hsep, hperm⟩ := h
  obtain ⟨pre, size, post, rfl, -⟩ := block_of_live hperm hc
  obtain ⟨-, -, -, -, -, hholds, -⟩ := hrep.used_block
  have hlower := hholds.lower
  have hupper := hholds.upper
  exact ⟨_, hrep.reowned rfl (fun lo hi hhi => hag lo hi (by omega))
    (fun lo hi hlo => hag lo hi (by omega)) (hholds.overwrite hag), hsep, hperm⟩

theorem write_heapOk {s : KHeap} {live : List Client} (h : HeapOk s live) {c : Client} {a : ℕ}
    (hc : c ∈ live) (hlo : c.ptr ≤ a) (hhi : a < c.ptr + c.bytes) (v : UInt8) :
    HeapOk { s with mem := Function.update s.mem a v } live :=
  h.overwrite hc fun _ _ hout _ _ _ => Function.update_of_ne (by omega) _ _

theorem gain_heapOk (h : HeapOk st.heap st.live) {size : ℕ} {r : Option (KHeap × ℕ)}
    (hr : Allocates st.heap st.live size r) :
    ∃ u, r.map (st.gain size) = some u ∧ u.heap.base = st.heap.base ∧ HeapOk u.heap u.live := by
  rcases hr with rfl | ⟨t, p, rfl, hp, hbase, ht⟩
  · exact ⟨_, rfl, rfl, by simpa [HeapState.gain] using h⟩
  · exact ⟨_, rfl, hbase, by simpa [HeapState.gain, hp] using ht⟩

private theorem small {size : ℕ} (h : size ≤ kheapSize) : size + 7 < 4294967296 := by
  unfold kheapSize at h
  omega

theorem next_heapOk (h : HeapOk st.heap st.live) (hop : st.Allowed op) :
    ∃ u, st.next op = some u ∧ u.heap.base = st.heap.base ∧ HeapOk u.heap u.live := by
  cases op with
  | malloc size => exact gain_heapOk h (kmalloc_heapOk h (small hop))
  | zalloc size => exact gain_heapOk h (kzalloc_heapOk h (small hop))
  | aligned size alignment => exact gain_heapOk h (kmallocAligned_heapOk h hop.1 hop.2)
  | free c =>
    obtain ⟨t, ht, hbase, hok⟩ := kfree_heapOk h hop
    exact ⟨⟨t, st.live.erase c⟩, by simp [HeapState.next, ht], hbase, hok⟩
  | write a v =>
    obtain ⟨c, hc, hlo, hhi⟩ := hop
    exact ⟨_, rfl, rfl, write_heapOk h hc hlo hhi v⟩

theorem heapStep_heapOk (h : HeapOk st.heap st.live) (hs : HeapStep st op st') :
    st'.heap.base = st.heap.base ∧ HeapOk st'.heap st'.live := by
  obtain ⟨u, hu, hok⟩ := next_heapOk h hs.1
  rw [hs.2, Option.some_inj] at hu
  exact hu ▸ hok

theorem heapRun_heapOk {mem : Memory} {heapVa : ℕ} {ops : List HeapOp} (hpos : 0 < heapVa)
    (hfits : heapVa + kheapSize < 4294967296)
    (hr : Run HeapStep ⟨kheapInit mem heapVa, []⟩ ops st) :
    st.heap.base = heapVa ∧ HeapOk st.heap st.live := by
  refine hr.preserves (I := fun st => st.heap.base = heapVa ∧ HeapOk st.heap st.live) ?_
    ⟨rfl, kheapInit_heapOk mem hpos hfits⟩
  rintro s op t ⟨hbase, hok⟩ hs
  obtain ⟨hbase', hok'⟩ := heapStep_heapOk hok hs
  exact ⟨hbase'.trans hbase, hok'⟩

end Steps

/-- After any run of the heap's calls from `mm_init` on, for a region that does not wrap, the
headers are well formed, no allowed call fails an assertion, and with nothing live the heap is
one free block again. -/
theorem heapRun_wellFormed {mem : Memory} {heapVa : ℕ} {ops : List HeapOp} {st : HeapState}
    (hpos : 0 < heapVa) (hfits : heapVa + kheapSize < 4294967296)
    (hr : Run HeapStep ⟨kheapInit mem heapVa, []⟩ ops st) :
    (∃ hdrs, HeapWf st.heap st.live hdrs) ∧ (∀ op, st.Allowed op → (st.next op).isSome) ∧
      (st.live = [] → OneFreeBlock st.heap) := by
  have hok := (heapRun_heapOk hpos hfits hr).2
  refine ⟨hok.wf, fun op hop => ?_, fun hnil => ?_⟩
  · obtain ⟨u, hu, -⟩ := next_heapOk hok hop
    rw [hu]
    rfl
  · rw [hnil] at hok
    exact hok.oneFreeBlock

/-- A plain and an aligned allocation, a write to the second, and both freed. -/
theorem heapRun_wellFormed_aligned : ∃ ops st,
    Run HeapStep ⟨kheapInit (fun _ => 0) 0xC0100000, []⟩ ops st ∧ ops.length = 5 ∧
      OneFreeBlock st.heap := by
  have hany : (execute (fun st op => decide (st.Allowed op)) HeapState.next
      ⟨kheapInit (fun _ => 0) 0xC0100000, []⟩
      [.malloc 100, .aligned 64 256, .write 0xC0100100 7, .free ⟨0xC010000C, 100⟩,
        .free ⟨0xC0100100, 64⟩]).any (fun st => decide (st.live = [])) = true := by
    decide +kernel
  obtain ⟨st, hst, hnil⟩ := (Option.any_eq_true _ _).mp hany
  have hrun : Run HeapStep ⟨kheapInit (fun _ => 0) 0xC0100000, []⟩ _ st :=
    .of_execute (fun _ _ _ hok hn => ⟨of_decide_eq_true hok, hn⟩) hst
  exact ⟨_, st, hrun, rfl,
    (heapRun_wellFormed (by decide) (by decide) hrun).2.2 (of_decide_eq_true hnil)⟩

end Leg

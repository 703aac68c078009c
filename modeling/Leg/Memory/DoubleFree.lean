import Leg.Memory.HeapContracts

/-! A pointer that was freed stays recognisable: its header is never marked as used before the
next allocation, whether it stays a free block or is merged into one, and what leads from the
pointer to it stays as it is. So a second `kfree` fails its assertion. -/
namespace Leg
open Tiling Memory Runs

/-- The header at `a` is not of a block in use, and its link is no tag. -/
def Retired (m : Memory) (base a : ℕ) : Prop :=
  m.load a ≠ kheapMagicUsed ∧ (m.load (a + 8) = 0 ∨ base ≤ m.load (a + 8))

/-- A header at `x` is the one at `a` or does not touch it. -/
def Beside (a x : ℕ) : Prop := x = a ∨ OffHeader a (a + hdrBytes) x

section Stores
variable {s : KHeap} {m : Memory} {base a x v h next prev : ℕ}

theorem Retired.magic (hr : Retired m base a) (hx : Beside a x) (hv : v ≠ kheapMagicUsed)
    (hlt : v < 4294967296) : Retired (m.store x v) base a := by
  unfold Beside OffHeader hdrBytes at hx
  unfold Retired
  rw [load_store_of_disjoint _ _ (by omega : a + 8 + 4 ≤ x ∨ x + 4 ≤ a + 8)]
  refine ⟨?_, hr.2⟩
  rcases hx with rfl | hx
  · rwa [load_store_self _ _ hlt]
  · rw [load_store_of_disjoint _ _ (by omega)]
    exact hr.1

theorem Retired.size (hr : Retired m base a) (hx : Beside a x) (v : ℕ) :
    Retired (m.store (x + 4) v) base a := by
  unfold Beside OffHeader hdrBytes at hx
  unfold Retired
  rw [load_store_of_disjoint _ _ (by omega), load_store_of_disjoint _ _ (by omega)]
  exact hr

theorem Retired.link (hr : Retired m base a) (hx : Beside a x) (hv : v = 0 ∨ base ≤ v)
    (hlt : v < 4294967296) : Retired (m.store (x + 8) v) base a := by
  unfold Beside OffHeader hdrBytes at hx
  unfold Retired
  rw [load_store_of_disjoint _ _ (by omega : a + 4 ≤ x + 8 ∨ x + 8 + 4 ≤ a)]
  refine ⟨hr.1, ?_⟩
  rcases hx with rfl | hx
  · rwa [load_store_self _ _ hlt]
  · rw [load_store_of_disjoint _ _ (by omega)]
    exact hr.2

theorem Retired.relink (hr : Retired s.mem base a) (hp : prev = 0 ∨ Beside a prev)
    (hv : v = 0 ∨ base ≤ v) (hlt : v < 4294967296) : Retired (s.relink prev v).mem base a := by
  unfold KHeap.relink
  split
  next h0 => exact hr.link (hp.resolve_left h0) hv hlt
  next => exact hr

theorem Retired.absorb (hr : Retired s.mem base a) (hh : Beside a h) (hn : Beside a next)
    (hlt : h + hdrBytes ≤ next) (hlink : s.nextFree next = 0 ∨ base ≤ s.nextFree next) :
    Retired (s.absorb h next).mem base a := by
  unfold hdrBytes at hlt
  have hsame (v : ℕ) : (s.setSize h v).nextFree next = s.nextFree next :=
    load_store_of_disjoint _ _ (by omega)
  rw [← hsame] at hlink
  exact ((hr.size hh _).link hh hlink (load_lt _ _)).magic hn (by decide) (by decide)

theorem unlinked_retired {n nx : ℕ} (ha : a = x ∨ Retired s.mem base a) (hx : Beside a x)
    (hp : prev = 0 ∨ Beside a prev) (hnx : nx = 0 ∨ base ≤ nx) (hnlt : nx < 4294967296)
    (hlow : base ≤ x) (hlt : x < 4294967296) : Retired (s.unlinked prev x n nx).mem base a := by
  have hmark : Retired ((s.mem.store x kheapMagicFree).store (x + 8) nx) base a := by
    rcases ha with rfl | hr
    · unfold Retired
      rw [load_store_of_disjoint _ _ (by omega), load_store_self _ _ (by decide),
        load_store_self _ _ hnlt]
      exact ⟨by decide, hnx⟩
    · exact (hr.magic hx (by decide) (by decide)).link hx hnx hnlt
  exact Retired.relink hmark hp (.inr hlow) hlt

end Stores

section Kfree
variable {s t : KHeap} {blocks pre post : List (Block Client)} {size a x : ℕ} {c d : Client}

theorem HeapRep.link_ok (h : HeapRep s blocks) (hx : x ∈ addrs hdrBytes s.base blocks)
    (hfree : s.magic x = kheapMagicFree) : s.nextFree x = 0 ∨ s.base ≤ s.nextFree x := by
  obtain ⟨pre, b, post, rfl, rfl, -, hiff⟩ := h.block_at hx
  obtain ⟨-, -, -, -, hnext, -⟩ := h.free_block (hiff.mp hfree)
  rw [hnext]
  rcases nextFree_cases hdrBytes (s.base + span hdrBytes pre + hdrBytes + b.size) 0 post with
    ⟨-, h0⟩ | ⟨hle, -⟩
  · exact .inl h0
  · right
    omega

theorem coalesceNext_retired {n : ℕ} (h : HeapRep s (pre ++ ⟨n, none⟩ :: post))
    (hall : ∀ x ∈ addrs hdrBytes s.base (pre ++ ⟨n, none⟩ :: post), Beside a x)
    (hr : Retired s.mem s.base a) :
    Retired (s.coalesceNext (s.base + span hdrBytes pre)).mem s.base a := by
  obtain ⟨-, -, -, -, hnext, -⟩ := h.free_block rfl
  obtain ⟨hx, -⟩ := h.free_header rfl
  simp only [KHeap.coalesceNext]
  split
  next hcond =>
    rw [hnext] at hcond ⊢
    rcases nextFree_cases hdrBytes (s.base + span hdrBytes pre + hdrBytes + n) 0 post with
      ⟨-, h0⟩ | ⟨hle, -, us, f, zs, rfl, -, hf, heq⟩
    · exact absurd h0 hcond.1
    · have hmem : s.base + span hdrBytes pre + hdrBytes + n + span hdrBytes us ∈
          addrs hdrBytes s.base (pre ++ ⟨n, none⟩ :: (us ++ f :: zs)) :=
        mem_addrs.mpr ⟨pre ++ ⟨n, none⟩ :: us, f, zs, by simp, by simp [Nat.add_assoc]⟩
      have hfree := hcond.2.2
      dsimp only at hle heq hfree ⊢
      rw [heq] at hle hfree ⊢
      exact hr.absorb (hall _ hx) (hall _ hmem) (by omega) (h.link_ok hmem hfree)
  next => exact hr

theorem coalescePrev_retired {n prev : ℕ} (h : HeapRep s (pre ++ ⟨n, none⟩ :: post))
    (hall : ∀ x ∈ addrs hdrBytes s.base (pre ++ ⟨n, none⟩ :: post), Beside a x)
    (hp : LastFree hdrBytes s.base pre prev) (hr : Retired s.mem s.base a) :
    Retired (s.coalescePrev prev (s.base + span hdrBytes pre)).mem s.base a := by
  obtain ⟨hx, hfree, -⟩ := h.free_header rfl
  unfold KHeap.coalescePrev
  split
  next hcond =>
    refine hr.absorb (hall _ ((h.lastFree_header hp).resolve_left hcond.1).1) (hall _ hx) ?_
      (h.link_ok hx hfree)
    obtain ⟨-, h0⟩ | ⟨xs, f, ys, rfl, -, -, rfl⟩ := hp
    · exact absurd h0 hcond.1
    · rw [span_append, span_cons]
      omega
  next => exact hr

/-- `kfree` retires the header it frees and keeps retired ones retired. -/
theorem kfree_retired (h : HeapRep s (pre ++ ⟨size, some d⟩ :: post))
    (hsep : Separated (pre ++ ⟨size, some d⟩ :: post)) (hr : s.kfree d.ptr = some t)
    (hall : ∀ x ∈ addrs hdrBytes s.base (pre ++ ⟨size, some d⟩ :: post), Beside a x)
    (ha : a = s.base + span hdrBytes pre ∨ Retired s.mem s.base a) :
    Retired t.mem s.base a := by
  obtain ⟨prev, hlast, heq⟩ := kfree_eq h
  dsimp only at heq
  rw [hr, Option.some.injEq] at heq
  subst heq
  have hfits := h.fits
  have hcov := h.covers
  rw [span_append, span_cons] at hcov
  dsimp only at hcov
  have hx : s.base + span hdrBytes pre ∈
      addrs hdrBytes s.base (pre ++ ⟨size, some d⟩ :: post) :=
        mem_addrs.mpr ⟨pre, _, post, rfl, rfl⟩
  have hurep := h.freed hlast
  have hub : (s.unlinked prev (s.base + span hdrBytes pre) size (nextFree hdrBytes
      (s.base + span hdrBytes pre + hdrBytes + size) post 0)).base = s.base := KHeap.relink_base _
  have hnx : let nx := nextFree hdrBytes (s.base + span hdrBytes pre + hdrBytes + size) post 0
      (nx = 0 ∨ s.base ≤ nx) ∧ nx < 4294967296 := by
    rcases nextFree_cases hdrBytes (s.base + span hdrBytes pre + hdrBytes + size) 0 post with
      ⟨-, h0⟩ | ⟨hle, hlt, -⟩
    · exact ⟨.inl h0, by rw [h0]; decide⟩
    · exact ⟨.inr (by omega), by omega⟩
  have hu := unlinked_retired (s := s) (n := size) ha (hall _ hx)
    ((h.lastFree_header hlast).imp_right fun hp => hall prev hp.1) hnx.1 hnx.2 (Nat.le_add_right ..)
    (by omega)
  change HeapRep (s.unlinked _ _ _ _) _ at hurep
  generalize s.unlinked prev (s.base + span hdrBytes pre) size (nextFree hdrBytes
    (s.base + span hdrBytes pre + hdrBytes + size) post 0) = u at *
  -- the headers stay where they were, or become fewer
  have hmerge := coarser_owner hdrBytes s.base pre post size (some d) none
  obtain ⟨-, hspost, -⟩ := separated_append.mp hsep
  obtain ⟨n, post', hvrep, -, -, hvb, hmerge'⟩ :=
    coalesceNext_spec hurep (separated_cons.mp hspost).2
  rw [← hub] at hu hlast hall hmerge ⊢
  have hallu := fun x hx => hall x (hmerge.addrs x hx)
  have hv := coalesceNext_retired hurep hallu hu
  generalize u.coalesceNext (u.base + span hdrBytes pre) = v at *
  rw [← hvb] at hv hlast hmerge' hallu ⊢
  exact coalescePrev_retired hvrep (fun x hx => hallu x (hmerge'.addrs x hx)) hlast hv

/-- No header lies in the block that once was at `a`, except at its start. -/
def Clear (s : KHeap) (a n : ℕ) : Prop :=
  ∀ hdrs, Tiles s s.base hdrs (s.base + s.capacity) →
    ∀ x ∈ hdrs, x = a ∨ OffHeader a (a + hdrBytes + n) x

theorem Clear.beside {n : ℕ} (h : Clear s a n) (hrep : HeapRep s blocks) :
    ∀ x ∈ addrs hdrBytes s.base blocks, Beside a x :=
  fun x hx => (h _ hrep.tiles x hx).imp_right fun hoff => hoff.imp (by omega) id

theorem HeapHolds.clear {rest : List Client} {n : ℕ} (h : HeapHolds s rest a n c) :
    Clear s a n := by
  have hsize := h.held.sizeAt
  obtain ⟨pre, post, rfl, hrep, -⟩ := h
  intro hdrs ht x hx
  obtain rfl := ht.unique hrep.tiles
  have ha : s.base + span hdrBytes pre ∈
      addrs hdrBytes s.base (pre ++ ⟨n, some c⟩ :: post) := mem_addrs.mpr ⟨pre, _, post, rfl, rfl⟩
  by_cases hxa : x = s.base + span hdrBytes pre
  · exact .inl hxa
  · right
    have := hrep.blocks_apart ha hx (Ne.symm hxa)
    rw [hsize] at this
    exact this.imp id (by omega)

theorem kfree_clear {rest : List Client} {n k : ℕ} (hh : HeapHolds s rest x k d)
    (hr : s.kfree d.ptr = some t) (hc : Clear s a n) (ha : a = x ∨ Retired s.mem s.base a) :
    Clear t a n ∧ Agree s.mem t.mem (a + hdrBytes) (a + hdrBytes + n) ∧
      Retired t.mem t.base a := by
  obtain ⟨pre, post, rfl, hrep, hsep, -, -⟩ := hh
  obtain ⟨u, blocks, hu, hbase, hrep', -, -, hmerge⟩ := kfree_blocks hrep hsep
  obtain rfl : t = u := by simpa [hr] using hu
  refine ⟨fun hdrs ht y hy => ?_, kfree_frame hrep hr fun y hy _ => ?_, ?_⟩
  · obtain rfl := ht.unique hrep'.tiles
    rw [hbase] at hy
    exact hc _ hrep.tiles y (hmerge.addrs y hy)
  · rcases hc _ hrep.tiles y hy with rfl | hoff
    · exact .inr (le_refl _)
    · exact hoff.imp id (by omega)
  · rw [hbase]
    exact kfree_retired hrep hsep hr (hc.beside hrep) ha

end Kfree

/-- The pointer `c` was that of a block at `a` with `n` bytes, which was freed. -/
structure DeadPointer (st : HeapState) (a n : ℕ) (c : Client) : Prop where
  laid : HeapLaid st.heap st.live
  low : st.heap.base ≤ a
  high : a + hdrBytes + n ≤ st.heap.base + kheapSize
  holds : HoldsClient st.heap.mem a n c
  retired : Retired st.heap.mem st.heap.base a
  clear : Clear st.heap a n
  others : ∀ d ∈ st.live, d.ptr + d.bytes ≤ a ∨ a + hdrBytes + n ≤ d.ptr

/-- `kfree` of the pointer fails its assertion, before it changes anything. -/
def FreeCaught (s : KHeap) (ptr : ℕ) : Prop :=
  ¬ s.hdrValid (wsub (s.resolve ptr) hdrBytes) kheapMagicUsed ∧ s.kfree ptr = none

/-- Only pointers are freed, and clients go on writing inside their bytes. -/
def HeapCall.frees : HeapCall → Prop
  | .op (.free _) => True
  | .op (.write _ _) => True
  | _ => False

def FreeStep : HeapState → HeapCall → HeapState → Prop :=
  Meeting (fun _ op => op.frees) HeapCallStep

section Runs
variable {st st' : HeapState} {a n : ℕ} {c d : Client} {op : HeapCall}

theorem DeadPointer.caught (h : DeadPointer st a n c) (hva : kernelVa ≤ st.heap.base) :
    FreeCaught st.heap c.ptr := by
  obtain ⟨hcap, -, hfits⟩ := h.laid.region
  have hhigh := h.high
  have hlower := h.holds.lower
  have htag : st.heap.nextFree a ≠ alignTag := by
    have := h.retired.2
    unfold KHeap.nextFree
    unfold kernelVa at hva
    unfold alignTag
    omega
  have hres := resolve_client htag h.holds h.low (by omega) (by omega)
  have hhdr : wsub (st.heap.resolve c.ptr) hdrBytes = a := by
    rw [hres, wsub_of_le (by omega) (by omega), Nat.add_sub_cancel]
  have hno : ¬ st.heap.hdrValid (wsub (st.heap.resolve c.ptr) hdrBytes) kheapMagicUsed := by
    rw [hhdr]
    exact fun hv => h.retired.1 hv.2
  refine ⟨hno, ?_⟩
  unfold KHeap.kfree
  rw [if_neg (by unfold hdrBytes at hlower; omega)]
  exact if_pos hno

theorem DeadPointer.start {t : KHeap} (h : HeapHolds st.heap (st.live.erase c) a n c)
    (hr : st.heap.kfree c.ptr = some t) : DeadPointer ⟨t, st.live.erase c⟩ a n c := by
  have hheld := h.held
  obtain ⟨u, hu, hbase, hlaid⟩ := kfree_laid h
  obtain rfl : t = u := by simpa [hr] using hu
  obtain ⟨hclear, hag, hret⟩ := kfree_clear h hr h.clear (.inl rfl)
  have hlow := hheld.low
  have hhigh := hheld.high
  rw [← hbase] at hlow hhigh
  refine ⟨hlaid, hlow, hhigh, hheld.holds.body hag, hret, hclear, fun d hd => ?_⟩
  obtain ⟨x, k, hx⟩ := h.laid.holds (List.mem_cons_of_mem c hd)
  have hlower := hx.held.holds.lower
  have hupper := hx.held.holds.upper
  have := h.apart hd hx.held.owns
  rw [hx.held.sizeAt] at this
  omega

theorem DeadPointer.free {t : KHeap} (h : DeadPointer st a n c) (hd : d ∈ st.live)
    (hr : st.heap.kfree d.ptr = some t) : DeadPointer ⟨t, st.live.erase d⟩ a n c := by
  obtain ⟨x, k, hx⟩ := h.laid.holds hd
  obtain ⟨u, hu, hbase, hlaid⟩ := kfree_laid hx
  obtain rfl : t = u := by simpa [hr] using hu
  obtain ⟨hclear, hag, hret⟩ := kfree_clear hx hr h.clear (.inr h.retired)
  have hlow := h.low
  have hhigh := h.high
  rw [← hbase] at hlow hhigh
  exact ⟨hlaid, hlow, hhigh, h.holds.body hag, hret, hclear,
    fun e he => h.others e (List.mem_of_mem_erase he)⟩

/-- Or write. -/
theorem DeadPointer.write (h : DeadPointer st a n c) (hd : d ∈ st.live) {x : ℕ} (v : UInt8)
    (hlo : d.ptr ≤ x) (hhi : x < d.ptr + d.bytes) :
    DeadPointer ⟨{ st.heap with mem := Function.update st.heap.mem x v }, st.live⟩ a n c := by
  obtain ⟨y, k, hy⟩ := h.laid.holds hd
  have hag := update_agree st.heap.mem v hlo hhi
  have hout := h.others d hd
  refine ⟨(hy.written v hlo hhi).laid.perm (List.perm_cons_erase hd).symm, h.low, h.high,
    h.holds.body (hag _ _ (by omega)), ?_, ?_, h.others⟩
  · have hword (z : ℕ) (h1 : a ≤ z) (h2 : z + 4 ≤ a + hdrBytes) :
        Memory.load (Function.update st.heap.mem x v) z = st.heap.mem.load z :=
      (hag a (a + hdrBytes) (by omega)).load h1 h2
    unfold Retired
    rw [hword a (le_refl a) (by unfold hdrBytes; omega),
      hword (a + 8) (by omega) (by unfold hdrBytes; omega)]
    exact h.retired
  · have hlower := hy.held.holds.lower
    have hupper := hy.held.holds.upper
    have hholds := hy.held.holds.overwrite hag
    obtain ⟨pre, post, rfl, hrep, -⟩ := hy
    have hrep' := hrep.reowned (m := Function.update st.heap.mem x v) rfl
      (fun lo hi hhi => hag lo hi (by omega)) (fun lo hi hlo => hag lo hi (by omega)) hholds
    intro hdrs ht z hz
    obtain rfl := ht.unique hrep'.tiles
    exact h.clear _ hrep.tiles z hz

theorem FreeStep.dead (h : DeadPointer st a n c) (hs : FreeStep st op st') :
    DeadPointer st' a n c ∧ st'.heap.base = st.heap.base := by
  obtain ⟨hop, hvalid, hcall⟩ := hs
  cases op with
  | realloc d size => exact absurd hop id
  | op op =>
    cases op with
    | malloc size => exact absurd hop id
    | zalloc size => exact absurd hop id
    | aligned size alignment => exact absurd hop id
    | free d =>
      obtain ⟨t, ht, rfl⟩ := Option.map_eq_some_iff.mp hcall
      obtain ⟨x, k, hx⟩ := h.laid.holds hvalid
      obtain ⟨u, hu, hbase, -⟩ := kfree_laid hx
      obtain rfl : t = u := by simpa [ht] using hu
      exact ⟨h.free hvalid ht, hbase⟩
    | write x v =>
      obtain ⟨d, hd, hlo, hhi⟩ := hvalid
      cases hcall
      exact ⟨h.write hd v hlo hhi, rfl⟩

/-- From every state that valid calls lead to without a wrapped one, with the heap in the kernel's
addresses: a live pointer is freed, and however many others are freed after it, to free it again
fails the assertion. -/
theorem double_free_caught {heapVa : ℕ} (hva : kernelVa ≤ heapVa)
    (hfits : heapVa + kheapSize < 4294967296) (hst : HeapUnwrapped heapVa st) (hc : c ∈ st.live) :
    ∃ t, st.heap.kfree c.ptr = some t ∧
      ∀ ops u, Run FreeStep ⟨t, st.live.erase c⟩ ops u → FreeCaught u.heap c.ptr := by
  have hpos : 0 < heapVa := by
    unfold kernelVa at hva
    omega
  obtain ⟨hbase, hlaid⟩ := hst.laid hpos hfits
  obtain ⟨a, n, hh⟩ := hlaid.holds hc
  obtain ⟨t, ht, htb, -⟩ := kfree_laid hh
  refine ⟨t, ht, fun ops u hr => ?_⟩
  obtain ⟨hdead, hub⟩ := hr.preserves
    (I := fun u => DeadPointer u a n c ∧ u.heap.base = t.base)
    (fun s op s' hs hstep =>
      ⟨(FreeStep.dead hs.1 hstep).1, (FreeStep.dead hs.1 hstep).2.trans hs.2⟩)
    ⟨.start hh ht, rfl⟩
  exact hdead.caught (by rw [hub, htb, hbase]; exact hva)

/-- An aligned pointer and a plain one behind it: the first is freed, then the second, then the
first again. -/
theorem double_free_caught_aligned : ∃ st, HeapUnwrapped 0xC0100000 st ∧
    ∃ c ∈ st.live, ∃ d ∈ st.live.erase c, ∃ t, st.heap.kfree c.ptr = some t ∧
      ∃ u, t.kfree d.ptr = some u ∧ FreeCaught u c.ptr := by
  obtain ⟨st, hst, c, hc, d, hd, -, hany⟩ := exists_unwrapped_heap
    [.op (.aligned 64 256), .op (.malloc 100)] (fun st => ∃ c ∈ st.live, ∃ d ∈ st.live.erase c,
      c.bytes = 64 ∧ ((st.heap.kfree c.ptr).bind fun t => t.kfree d.ptr).isSome) (by decide +kernel)
  obtain ⟨t, ht, hall⟩ := double_free_caught (by decide) (by decide) hst hc
  rw [ht, Option.bind_some] at hany
  obtain ⟨u, hu⟩ := Option.isSome_iff_exists.mp hany
  have hstep : FreeStep ⟨t, st.live.erase c⟩ (.op (.free d)) ⟨u, (st.live.erase c).erase d⟩ :=
    ⟨trivial, hd, Option.map_eq_some_iff.mpr ⟨u, hu, rfl⟩⟩
  have hcaught := hall _ _ (.single hstep)
  exact ⟨st, hst, c, hc, d, hd, t, ht, u, hu, hcaught⟩

/-- The wrapped request `kmalloc_aligned(0xFFFFFFC0, 64)` is served out of the eight free bytes
before the block of `d`, with a pointer into that block. What `d` then writes inside its own
bytes decides where the pointer leads: first to a header of its making, and once that one has a
link, to another. -/
theorem double_free_missed : ∃ st, HeapReachable 0xC0100000 st ∧ ∃ c ∈ st.live,
    ∃ t, st.heap.kfree c.ptr = some t ∧ ∃ u, t.kfree c.ptr = some u ∧ ¬ FreeCaught t c.ptr := by
  obtain ⟨st, hst, c, hc, hany⟩ := exists_reachable_heap
    [.op (.malloc 8), .op (.malloc 48), .op (.free ⟨0xC010000C, 8⟩), .op (.aligned 0xFFFFFFC0 64),
      .op (.write 0xC0100030 0xEF), .op (.write 0xC0100031 0xBE), .op (.write 0xC0100038 0x3C),
      .op (.write 0xC0100044 0xEF), .op (.write 0xC0100045 0xBE)]
    (fun st => ∃ c ∈ st.live, ((st.heap.kfree c.ptr).bind fun t => t.kfree c.ptr).isSome)
    (by decide +kernel)
  obtain ⟨u, hu⟩ := Option.isSome_iff_exists.mp hany
  obtain ⟨t, ht, hu⟩ := Option.bind_eq_some_iff.mp hu
  exact ⟨st, hst, c, hc, t, ht, u, hu, fun hcaught => by simp [hcaught.2] at hu⟩

end Runs

end Leg

import Leg.Memory.HeapRealloc

/-! Runs of all the heap's calls, `krealloc` among them, with arguments of any 32-bit value, and
what they keep as long as the sums made of these do not wrap into a small request that finds a
block. -/
namespace Leg
open Tiling Memory Runs

section Fit
variable {s : KHeap} {live : List Client} {a n x : ℕ}

theorem Tiles.le {hs : List ℕ} {e : ℕ} (h : Tiles s a hs e) : a ≤ e := by
  induction hs generalizing a with
  | nil => exact le_of_eq h
  | cons y hs ih =>
    have := ih h.2
    have := h.1
    omega

theorem Tiles.bounds {hs : List ℕ} {e : ℕ} (h : Tiles s a hs e) (hx : x ∈ hs) :
    a ≤ x ∧ x + hdrBytes + s.size x ≤ e := by
  induction hs generalizing a with
  | nil => exact absurd hx List.not_mem_nil
  | cons y hs ih =>
    obtain ⟨rfl, ht⟩ := h
    rcases List.mem_cons.mp hx with rfl | hx
    · exact ⟨le_refl _, ht.le⟩
    · have := ih ht hx
      omega

/-- The headers of a region are what its memory says. -/
theorem Tiles.unique {hs hs' : List ℕ} {e : ℕ} (h : Tiles s a hs e) (h' : Tiles s a hs' e) :
    hs = hs' := by
  induction hs generalizing a hs' with
  | nil =>
    cases hs' with
    | nil => rfl
    | cons y hs' =>
      have := h'.2.le
      have h1 : a = e := h
      have h2 := h'.1
      unfold hdrBytes at this
      omega
  | cons y hs ih =>
    cases hs' with
    | nil =>
      have := h.2.le
      have h1 : a = e := h'
      have h2 := h.1
      unfold hdrBytes at this
      omega
    | cons z hs' =>
      obtain ⟨rfl, ht⟩ := h
      obtain ⟨rfl, ht'⟩ := h'
      rw [ih ht ht']

/-- `a` is the lowest free header with `n` bytes behind it. -/
def FirstFit (s : KHeap) (n a : ℕ) : Prop :=
  ∃ hdrs, Tiles s s.base hdrs (s.base + s.capacity) ∧ a ∈ hdrs ∧ s.magic a = kheapMagicFree ∧
    n ≤ s.size a ∧ ∀ x ∈ hdrs, x < a → s.magic x = kheapMagicFree → s.size x < n

/-- All `n` bytes from `p` on lie in the body of one block in use. -/
def InUsedBlock (s : KHeap) (p n : ℕ) : Prop :=
  ∃ hdrs, Tiles s s.base hdrs (s.base + s.capacity) ∧
    ∃ x ∈ hdrs, s.magic x = kheapMagicUsed ∧ x + hdrBytes ≤ p ∧ p + n ≤ x + hdrBytes + s.size x

theorem FirstFit.unique (h : FirstFit s n a) (h' : FirstFit s n x) : x = a := by
  obtain ⟨hs, ht, hm, hf, hn, hl⟩ := h
  obtain ⟨hs', ht', hm', hf', hn', hl'⟩ := h'
  obtain rfl := ht.unique ht'
  by_contra hne
  rcases Nat.lt_or_gt_of_ne hne with hlt | hlt
  · have := hl x hm' hlt hf'
    omega
  · have := hl' a hm hlt hf
    omega

theorem HeapRep.tiles {blocks : List (Block Client)} (h : HeapRep s blocks) :
    Tiles s s.base (addrs hdrBytes s.base blocks) (s.base + s.capacity) := by
  have := h.laid.tiles
  rwa [h.covers, ← h.capacity] at this

theorem HeapRep.block_at {blocks : List (Block Client)} (h : HeapRep s blocks)
    (hx : x ∈ addrs hdrBytes s.base blocks) : ∃ pre b post, blocks = pre ++ b :: post ∧
      x = s.base + span hdrBytes pre ∧ s.size x = b.size ∧
      (s.magic x = kheapMagicFree ↔ b.owner.isNone = true) := by
  obtain ⟨pre, b, post, rfl, rfl⟩ := mem_addrs.mp hx
  obtain ⟨h1, h2, -⟩ := (laid_append.mp h.laid).2.1.magic_size
  exact ⟨pre, b, post, rfl, rfl, h1, h2⟩

theorem noRoom_noFit {blocks : List (Block Client)} (h : HeapRep s blocks) (hn : NoRoom n blocks) :
    ¬ FirstFit s n x := by
  rintro ⟨hdrs, ht, hm, hf, hle, -⟩
  obtain rfl := ht.unique h.tiles
  obtain ⟨pre, b, post, rfl, rfl, hsize, hiff⟩ := h.block_at hm
  have := hn b (by simp) (hiff.mp hf)
  omega

theorem firstFit_of_noRoom {pre post : List (Block Client)} {b : Block Client}
    (h : HeapRep s (pre ++ b :: post)) (hb : b.owner.isNone) (hn : n ≤ b.size)
    (hpre : NoRoom n pre) : FirstFit s n (s.base + span hdrBytes pre) := by
  obtain ⟨hmem, hmagic, hsize⟩ := h.free_header hb
  refine ⟨_, h.tiles, hmem, hmagic, hsize ▸ hn, fun x hx hlt hfree => ?_⟩
  obtain ⟨us, d, vs, heq, rfl, hd, hiff⟩ := h.block_at hx
  rw [hd]
  rcases split_cases heq with ⟨rfl, -⟩ | ⟨zs, rfl⟩ | ⟨zs, rfl⟩
  · exact absurd hlt (lt_irrefl _)
  · rw [span_append, span_cons] at hlt
    omega
  · exact hpre d (by simp) (hiff.mp hfree)

/-- `kmalloc` of any size but 0: it takes the first fit for the rounded size, if there is one. -/
theorem kmalloc_fit (h : HeapOk s live) {size : ℕ} (h0 : size ≠ 0) :
    (s.kmalloc size = some (s, 0) ∧ ∀ x, ¬ FirstFit s (alignUp size kheapAlign) x) ∨
      ∃ t a, s.kmalloc size = some (t, a + hdrBytes) ∧ t.base = s.base ∧ t.capacity = s.capacity ∧
        FirstFit s (alignUp size kheapAlign) a ∧ s.base ≤ a ∧
        a + hdrBytes + s.size a ≤ s.base + kheapSize := by
  obtain ⟨blocks, hrep, -⟩ := h
  rcases kmalloc_firstFit hrep h0 with
    ⟨hr, hno⟩ | ⟨pre, b, post, prev, rfl, hb, hn, hpre, hp, hr⟩
  · exact .inl ⟨hr, fun x => noRoom_noFit hrep hno⟩
  right
  obtain ⟨-, -, -, hsize, -, -, hend⟩ := hrep.free_block hb
  have hfits := hrep.fits
  have hptr : u32 (s.base + span hdrBytes pre + hdrBytes) =
      s.base + span hdrBytes pre + hdrBytes := u32_of_lt (by omega)
  have hcap : (s.take prev (s.base + span hdrBytes pre) (alignUp size kheapAlign)).1.capacity =
      s.capacity := by
    simp only [KHeap.take, KHeap.markUsed_capacity]
    split
    · exact KHeap.relink_capacity _
    · exact KHeap.relink_capacity _
  refine ⟨_, s.base + span hdrBytes pre, ?_, KHeap.take_base _ _, hcap,
    firstFit_of_noRoom hrep hb hn hpre, by omega, by omega⟩
  rw [hr, ← hptr]
  rfl

theorem HeapLaid.region (h : HeapLaid s live) :
    s.capacity = kheapSize ∧ 0 < s.base ∧ s.base + kheapSize < 4294967296 := by
  obtain ⟨blocks, hrep, -⟩ := h
  exact ⟨hrep.capacity, hrep.base_pos, hrep.fits⟩

theorem HeapLaid.inUsed {c : Client} (h : HeapLaid s live) (hc : c ∈ live) :
    InUsedBlock s c.ptr c.bytes := by
  obtain ⟨hdrs, hwf, -⟩ := h.ok.headers
  obtain ⟨x, hx, howns⟩ := hwf.owned c hc
  exact ⟨hdrs, hwf.tiles, x, hx, howns.magic, howns.lower, howns.upper⟩

theorem InUsedBlock.le_capacity {p : ℕ} (h : InUsedBlock s p n) : n ≤ s.capacity := by
  obtain ⟨hdrs, ht, x, hx, -, h1, h2⟩ := h
  have := ht.bounds hx
  omega

end Fit

/-- The alignment and the request to `kmalloc` that `kmalloc_aligned` makes of its arguments. -/
def raisedAlign (alignment : ℕ) : ℕ := if alignment < kheapAlign then kheapAlign else alignment

def alignedTotal (size alignment : ℕ) : ℕ := u32 (size + raisedAlign alignment + alignMetaBytes)

/-- The requests that `kmalloc` and `kzalloc` serve with as many bytes, or refuse: rounding
does not wrap, or there is no free block. -/
def SizeHonoured (s : KHeap) (size : ℕ) : Prop := size + 7 < 4294967296 ∨ s.freeList = 0

/-- The requests that `kmalloc_aligned` turns down by its arguments, makes without wrapping, or
finds no block for. -/
def AlignPlain (s : KHeap) (size alignment : ℕ) : Prop :=
  size = 0 ∨ alignment = 0 ∨ alignment &&& (alignment - 1) ≠ 0 ∨
    size + raisedAlign alignment + 15 < 4294967296 ∨ alignedTotal size alignment = 0 ∨
    ∀ a, ¬ FirstFit s (alignUp (alignedTotal size alignment) kheapAlign) a

/-- A call of the heap or a client's write, or a `krealloc`. -/
inductive HeapCall where
  | op (op : HeapOp)
  | realloc (c : Client) (size : ℕ)

namespace HeapState
variable (st : HeapState)

/-- One call; after a `krealloc` the client may use what it asked for as far as its block goes. -/
def call : HeapCall → Option HeapState
  | .op op => st.next op
  | .realloc c size => (st.heap.krealloc c.ptr size).map fun r =>
    if size = 0 then ⟨r.1, st.live.erase c⟩
    else if r.2 = 0 then ⟨r.1, st.live⟩
    else ⟨r.1, ⟨r.2, min size (r.1.usable r.2)⟩ :: st.live.erase c⟩

/-- Arguments are 32-bit words, pointers are live ones, and clients write inside the bytes they
asked for. -/
def Valid : HeapCall → Prop
  | .op (.malloc size) => size < 4294967296
  | .op (.zalloc size) => size < 4294967296
  | .op (.aligned size alignment) => size < 4294967296 ∧ alignment < 4294967296
  | .op (.free c) => c ∈ st.live
  | .op (.write a _) => ∃ c ∈ st.live, c.ptr ≤ a ∧ a < c.ptr + c.bytes
  | .realloc c size => c ∈ st.live ∧ size < 4294967296

instance : DecidablePred st.Valid
  | .op (.malloc _) => inferInstanceAs (Decidable (_ < _))
  | .op (.zalloc _) => inferInstanceAs (Decidable (_ < _))
  | .op (.aligned _ _) => inferInstanceAs (Decidable (_ ∧ _))
  | .op (.free _) => inferInstanceAs (Decidable (_ ∈ _))
  | .op (.write _ _) => inferInstanceAs (Decidable (∃ c ∈ _, _))
  | .realloc _ _ => inferInstanceAs (Decidable (_ ∧ _))

/-- The sums made of a request do not wrap into a small one that finds a block. -/
def Unwrapped : HeapCall → Prop
  | .op (.malloc size) => SizeHonoured st.heap size
  | .op (.zalloc size) => SizeHonoured st.heap size
  | .op (.aligned size alignment) => AlignPlain st.heap size alignment
  | _ => True

end HeapState

def HeapCallStep (st : HeapState) (op : HeapCall) (st' : HeapState) : Prop :=
  st.Valid op ∧ st.call op = some st'

/-- The heaps that valid calls lead to from `mm_init` on, for a heap at `heapVa`. -/
def HeapReachable (heapVa : ℕ) (st : HeapState) : Prop :=
  ∃ mem ops, Run HeapCallStep ⟨kheapInit mem heapVa, []⟩ ops st

/-- The heaps that they lead to when no request wraps into a small one that finds a block. -/
def HeapUnwrapped (heapVa : ℕ) (st : HeapState) : Prop :=
  ∃ mem ops, Run (Meeting HeapState.Unwrapped HeapCallStep) ⟨kheapInit mem heapVa, []⟩ ops st

theorem HeapUnwrapped.reachable {heapVa : ℕ} {st : HeapState} (h : HeapUnwrapped heapVa st) :
    HeapReachable heapVa st := by
  obtain ⟨mem, ops, hr⟩ := h
  exact ⟨mem, ops, hr.mono fun _ _ _ => And.right⟩

section Steps
variable {st st' : HeapState} {op : HeapCall}

theorem HeapLaid.gain (h : HeapLaid st.heap st.live) {size : ℕ} {r : Option (KHeap × ℕ)}
    (hr : AllocatesLaid st.heap st.live size r) :
    ∃ u, r.map (st.gain size) = some u ∧ u.heap.base = st.heap.base ∧ HeapLaid u.heap u.live := by
  rcases hr with rfl | ⟨t, p, rfl, hp, hbase, ht⟩
  · exact ⟨_, rfl, rfl, by simpa [HeapState.gain] using h⟩
  · exact ⟨_, rfl, hbase, by simpa [HeapState.gain, hp] using ht⟩

theorem kmalloc_empty {s : KHeap} (h : s.freeList = 0) (size : ℕ) :
    s.kmalloc size = some (s, 0) := by
  unfold KHeap.kmalloc
  split
  · rfl
  · simp [h, KHeap.kmallocLoop]

theorem kmalloc_honoured {s : KHeap} {live : List Client} {size : ℕ} (h : HeapLaid s live)
    (hs : SizeHonoured s size) : AllocatesLaid s live size (s.kmalloc size) :=
  hs.elim (kmalloc_laid h) fun h0 => .inl (kmalloc_empty h0 size)

theorem kzalloc_honoured {s : KHeap} {live : List Client} {size : ℕ} (h : HeapLaid s live)
    (hs : SizeHonoured s size) : AllocatesLaid s live size (s.kzalloc size) :=
  hs.elim (kzalloc_laid h) fun h0 => .inl (by simp [KHeap.kzalloc, kmalloc_empty h0])

theorem kmallocAligned_plain {s : KHeap} {live : List Client} {size alignment : ℕ}
    (h : HeapLaid s live) (ha : alignment < 4294967296) (hs : AlignPlain s size alignment) :
    AllocatesLaid s live size (s.kmallocAligned size alignment) := by
  rcases hs with hargs | hargs | hargs | hmax | htotal | hno
  · exact .inl (by rw [KHeap.kmallocAligned, if_pos (.inl hargs)])
  · exact .inl (by rw [KHeap.kmallocAligned, if_pos (.inr (.inl hargs))])
  · exact .inl (by rw [KHeap.kmallocAligned, if_pos (.inr (.inr hargs))])
  · exact kmallocAligned_laid h ha hmax
  all_goals
    left
    unfold KHeap.kmallocAligned
    split
    · rfl
    dsimp only
    rw [show u32 (size + (if alignment < kheapAlign then kheapAlign else alignment) +
      alignMetaBytes) =
      alignedTotal size alignment from rfl]
  · rw [htotal]
    rfl
  · by_cases h0 : alignedTotal size alignment = 0
    · rw [h0]
      rfl
    · rcases kmalloc_fit h.ok h0 with ⟨hr, -⟩ | ⟨t, a, -, -, -, hfit, -⟩
      · simp [hr]
      · exact absurd hfit (hno a)

theorem HeapHolds.resized {s : KHeap} {rest : List Client} {a n size : ℕ} {c : Client}
    (h : HeapHolds s rest a n c) (h0 : size ≠ 0) :
    HeapHolds s rest a n ⟨c.ptr, min size (s.usable c.ptr)⟩ := by
  obtain ⟨husable, hbytes⟩ := h.held.usable
  have hholds := h.held.holds
  have hpos := hholds.pos
  have hupper := hholds.upper
  refine h.reowned (m := s.mem) (fun _ _ _ => .refl _ _ _) (fun _ _ _ => .refl _ _ _)
    ⟨hholds.lower, ?_, ?_, hholds.start⟩
  · dsimp only
    omega
  · dsimp only
    omega

theorem update_agree (m : Memory) (v : UInt8) {x p n : ℕ} (hlo : p ≤ x) (hhi : x < p + n) :
    ∀ lo hi, hi ≤ p ∨ p + n ≤ lo → Agree m (Function.update m x v) lo hi :=
  fun _ _ hout _ _ _ => Function.update_of_ne (by omega) _ _

theorem HeapHolds.written {s : KHeap} {rest : List Client} {a n x : ℕ} {c : Client}
    (h : HeapHolds s rest a n c) (v : UInt8) (hlo : c.ptr ≤ x) (hhi : x < c.ptr + c.bytes) :
    HeapHolds { s with mem := Function.update s.mem x v } rest a n c := by
  have hlower := h.held.holds.lower
  have hupper := h.held.holds.upper
  have hag := update_agree s.mem v hlo hhi
  exact h.reowned (fun lo hi hhi => hag lo hi (by omega)) (fun lo hi hlo => hag lo hi (by omega))
    (h.held.holds.overwrite hag)

/-- Every valid call whose sums do not wrap returns, and keeps the heap laid out. -/
theorem call_laid (h : HeapLaid st.heap st.live) (hop : st.Valid op) (hun : st.Unwrapped op) :
    ∃ u, st.call op = some u ∧ u.heap.base = st.heap.base ∧ HeapLaid u.heap u.live := by
  cases op with
  | op op =>
    cases op with
    | malloc size => exact h.gain (kmalloc_honoured h hun)
    | zalloc size => exact h.gain (kzalloc_honoured h hun)
    | aligned size alignment => exact h.gain (kmallocAligned_plain h hop.2 hun)
    | free c =>
      obtain ⟨a, n, hh⟩ := h.holds hop
      obtain ⟨t, ht, hbase, hlaid⟩ := kfree_laid hh
      exact ⟨⟨t, st.live.erase c⟩, by simp [HeapState.call, HeapState.next, ht], hbase, hlaid⟩
    | write a v =>
      obtain ⟨c, hc, hlo, hhi⟩ := hop
      obtain ⟨x, n, hh⟩ := h.holds hc
      exact ⟨_, rfl, rfl, (hh.written v hlo hhi).laid.perm (List.perm_cons_erase hc).symm⟩
  | realloc c size =>
    obtain ⟨hc, hsize⟩ := hop
    obtain ⟨a, n, hh⟩ := h.holds hc
    have hp := hh.held.ptr_ne_zero
    by_cases h0 : size = 0
    · obtain ⟨t, ht, hbase, hlaid⟩ := kfree_laid hh
      refine ⟨⟨t, st.live.erase c⟩, ?_, hbase, hlaid⟩
      simp [HeapState.call, KHeap.krealloc, hp, h0, ht]
    by_cases hfit : alignUp size kheapAlign ≤ n
    · refine ⟨⟨st.heap, ⟨c.ptr, min size (st.heap.usable c.ptr)⟩ :: st.live.erase c⟩, ?_, rfl,
        (hh.resized h0).laid⟩
      simp [HeapState.call, krealloc_inPlace hh.held h0 hfit, h0, hp]
    · rcases krealloc_move hh h0 hsize hfit with hr | ⟨t, p, hr, hne, hbase, hlaid, -⟩
      · exact ⟨st, by simp [HeapState.call, hr, h0], rfl, h⟩
      · have huse : min size (t.usable p) = size := by
          obtain ⟨x, k, hx⟩ := hlaid.holds (List.mem_cons_self ..)
          exact Nat.min_eq_left hx.held.usable.2
        refine ⟨⟨t, ⟨p, size⟩ :: st.live.erase c⟩, ?_, hbase, hlaid⟩
        simp [HeapState.call, hr, h0, hne, huse]

theorem kheapInit_laid {heapVa : ℕ} (mem : Memory) (hpos : 0 < heapVa)
    (hfits : heapVa + kheapSize < 4294967296) : HeapLaid (kheapInit mem heapVa) [] := by
  obtain ⟨blocks, hrep, hsep, hperm⟩ := kheapInit_heapOk mem hpos hfits
  obtain rfl := hrep.unowned hsep hperm.eq_nil
  refine ⟨_, hrep, hsep, hperm, fun b hb => ?_⟩
  rw [List.mem_singleton.mp hb]
  exact (by decide : 4 ∣ kheapSize - hdrBytes)

theorem HeapUnwrapped.laid {heapVa : ℕ} (hpos : 0 < heapVa)
    (hfits : heapVa + kheapSize < 4294967296) (h : HeapUnwrapped heapVa st) :
    st.heap.base = heapVa ∧ HeapLaid st.heap st.live := by
  obtain ⟨mem, ops, hr⟩ := h
  refine hr.preserves (I := fun st => st.heap.base = heapVa ∧ HeapLaid st.heap st.live) ?_
    ⟨rfl, kheapInit_laid mem hpos hfits⟩
  rintro s op t ⟨hbase, hlaid⟩ ⟨hun, hop, ht⟩
  obtain ⟨u, hu, hub, hul⟩ := call_laid hlaid hop hun
  rw [ht, Option.some_inj] at hu
  subst hu
  exact ⟨hub.trans hbase, hul⟩

end Steps

section Fresh

/-- The heap after `mm_init`, at `0xC0100000`. -/
def freshHeap : HeapState := ⟨kheapInit (fun _ => 0) 0xC0100000, []⟩

theorem freshHeap_unwrapped : HeapUnwrapped 0xC0100000 freshHeap := ⟨_, [], .nil _⟩

/-- No sum made of the request wraps. -/
def HeapCall.plain : HeapCall → Bool
  | .op (.malloc size) => decide (size + 7 < 4294967296)
  | .op (.zalloc size) => decide (size + 7 < 4294967296)
  | .op (.aligned size alignment) => decide (size + raisedAlign alignment + 15 < 4294967296)
  | _ => true

theorem HeapCall.plain_unwrapped {op : HeapCall} (h : op.plain) (st : HeapState) :
    st.Unwrapped op := by
  cases op with
  | op op =>
    cases op with
    | malloc size => exact .inl (of_decide_eq_true h)
    | zalloc size => exact .inl (of_decide_eq_true h)
    | aligned size alignment => exact .inr (.inr (.inr (.inl (of_decide_eq_true h))))
    | free c => trivial
    | write a v => trivial
  | realloc c size => trivial

theorem exists_reachable_heap (ops : List HeapCall) (P : HeapState → Prop) [DecidablePred P]
    (h : (execute (fun st op => decide (st.Valid op)) HeapState.call freshHeap ops).any
      fun st => decide (P st)) : ∃ st, HeapReachable 0xC0100000 st ∧ P st := by
  obtain ⟨st, hst, hb⟩ := (Option.any_eq_true _ _).mp h
  exact ⟨st, ⟨_, ops, .of_execute (fun _ _ _ hok hn => ⟨of_decide_eq_true hok, hn⟩) hst⟩,
    of_decide_eq_true hb⟩

theorem exists_unwrapped_heap (ops : List HeapCall) (P : HeapState → Prop) [DecidablePred P]
    (h : (execute (fun st op => decide (st.Valid op) && op.plain) HeapState.call freshHeap ops).any
      fun st => decide (P st)) : ∃ st, HeapUnwrapped 0xC0100000 st ∧ P st := by
  obtain ⟨st, hst, hb⟩ := (Option.any_eq_true _ _).mp h
  refine ⟨st, ⟨_, ops, .of_execute (fun s op _ hok hn => ?_) hst⟩, of_decide_eq_true hb⟩
  rw [Bool.and_eq_true] at hok
  exact ⟨HeapCall.plain_unwrapped hok.2 s, of_decide_eq_true hok.1, hn⟩

end Fresh

end Leg

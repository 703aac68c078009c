import Leg.Memory.HeapContracts

/-! `kmalloc` runs out only when the region has: freed blocks are merged with the free ones
around them and the free list has them all, so a maximal free range of bytes is one free block,
and the search finds the lowest one that is large enough. -/
namespace Leg
open Tiling Memory Runs

/-- The byte at `x` of the region belongs to no block in use. -/
def FreeByte (s : KHeap) (x : ℕ) : Prop :=
  ∃ hdrs, Tiles s s.base hdrs (s.base + s.capacity) ∧ s.base ≤ x ∧ x < s.base + s.capacity ∧
    ∀ h ∈ hdrs, s.magic h = kheapMagicUsed → x < h ∨ h + hdrBytes + s.size h ≤ x

/-- The bytes from `lo` to `hi` are free and those on both sides are not, or are not in the
region. -/
structure FreeRange (s : KHeap) (lo hi : ℕ) : Prop where
  nonempty : lo < hi
  free : ∀ x, lo ≤ x → x < hi → FreeByte s x
  below : lo = s.base ∨ ¬ FreeByte s (lo - 1)
  above : ¬ FreeByte s hi

/-- A size rounded up to a multiple of eight. -/
def roundEight (size : ℕ) : ℕ := (size + 7) / 8 * 8

/-- A free range with room for a header and the rounded size. -/
def RoomFor (s : KHeap) (size lo hi : ℕ) : Prop :=
  FreeRange s lo hi ∧ lo + hdrBytes + roundEight size ≤ hi

/-- The blocks outside the bytes from `lo` to `hi` are the same as before, up to the links
between free ones. -/
def OthersKept (s t : KHeap) (lo hi : ℕ) : Prop :=
  ∃ hdrs hdrs', Tiles s s.base hdrs (s.base + s.capacity) ∧
    Tiles t t.base hdrs' (t.base + t.capacity) ∧
    (∀ x, x < lo ∨ hi ≤ x → (x ∈ hdrs ↔ x ∈ hdrs')) ∧
    ∀ x ∈ hdrs, x < lo ∨ hi ≤ x →
      Agree s.mem t.mem x (x + 8) ∧ Agree s.mem t.mem (x + hdrBytes) (x + hdrBytes + s.size x) ∧
        (s.magic x = kheapMagicUsed → t.nextFree x = s.nextFree x)

/-- What `kmalloc` owes with result `r`: null and an untouched heap when no free range has room,
and else a pointer into the lowest one that has, with all other blocks as they were. -/
structure MallocComplete (s : KHeap) (size : ℕ) (r : KHeap × ℕ) : Prop where
  null_iff : r.2 = 0 ↔ ¬ ∃ lo hi, RoomFor s size lo hi
  refused : r.2 = 0 → r.1 = s
  lowest : r.2 ≠ 0 → ∃ lo hi, RoomFor s size lo hi ∧ r.2 = lo + hdrBytes ∧
    (∀ lo' hi', RoomFor s size lo' hi' → lo ≤ lo') ∧ OthersKept s r.1 lo hi

section Ranges
variable {s t : KHeap} {blocks pre post : List (Block Client)} {b : Block Client}
  {x lo hi size : ℕ}

/-- A byte is free when it lies in a free block. -/
theorem HeapRep.freeByte_iff (h : HeapRep s blocks) : FreeByte s x ↔
    ∃ pre b post, blocks = pre ++ b :: post ∧ b.owner.isNone ∧ s.base + span hdrBytes pre ≤ x ∧
      x < s.base + span hdrBytes pre + hdrBytes + b.size := by
  constructor
  · rintro ⟨hdrs, ht, hlo, hhi, hall⟩
    obtain rfl := ht.unique h.tiles
    rw [h.capacity, ← h.covers] at hhi
    obtain ⟨pre, b, post, rfl, h1, h2⟩ := exists_block hlo hhi
    refine ⟨pre, b, post, rfl, ?_, h1, h2⟩
    cases hb : b.owner with
    | none => rfl
    | some c =>
      obtain ⟨n, owner⟩ := b
      cases hb
      obtain ⟨-, -, hused, hsize, -⟩ := h.used_block
      have := hall _ (mem_addrs.mpr ⟨pre, _, post, rfl, rfl⟩) hused
      rw [hsize] at this
      dsimp only at h2
      omega
  · rintro ⟨pre, b, post, rfl, hb, h1, h2⟩
    obtain ⟨hmem, hmagic, hsize⟩ := h.free_header hb
    have hin := h.tiles.bounds hmem
    rw [hsize] at hin
    refine ⟨_, h.tiles, by omega, by omega, fun y hy hused => ?_⟩
    have hne : s.base + span hdrBytes pre ≠ y := by
      rintro rfl
      exact absurd (hmagic.symm.trans hused) (by decide)
    have := h.blocks_apart hmem hy hne
    rw [hsize] at this
    omega

theorem block_unique {us vs : List (Block Client)} {a : ℕ} {d : Block Client}
    (heq : pre ++ b :: post = us ++ d :: vs)
    (h1 : a + span hdrBytes pre ≤ x) (h2 : x < a + span hdrBytes pre + hdrBytes + b.size)
    (h1' : a + span hdrBytes us ≤ x) (h2' : x < a + span hdrBytes us + hdrBytes + d.size) :
    pre = us ∧ b = d := by
  rcases split_cases heq with hsame | ⟨zs, rfl⟩ | ⟨zs, rfl⟩
  · exact hsame
  · rw [span_append, span_cons] at h1'
    omega
  · rw [span_append, span_cons] at h1
    omega

theorem separated_neighbours {d : Block Client} (h : Separated (pre ++ b :: d :: post))
    (hb : b.owner.isNone) : d.owner.isNone = false := by
  obtain ⟨-, h, -⟩ := separated_append.mp h
  exact h.rel.resolve_left (by simp [hb])

theorem not_free_after (h : HeapRep s (pre ++ b :: post)) (hsep : Separated (pre ++ b :: post))
    (hb : b.owner.isNone) : ¬ FreeByte s (s.base + span hdrBytes pre + hdrBytes + b.size) := by
  intro hfree
  obtain ⟨us, d, vs, heq, hd, h1, h2⟩ := h.freeByte_iff.mp hfree
  cases post with
  | nil =>
    have hspan := congrArg (span hdrBytes) heq
    simp only [span_append, span_cons, span_nil] at hspan
    omega
  | cons d' post =>
    have heq' : pre ++ b :: d' :: post = (pre ++ [b]) ++ d' :: post := by simp
    have hpos : 0 < hdrBytes := by decide
    obtain ⟨-, rfl⟩ := block_unique (heq'.symm.trans heq) (a := s.base)
      (by simp only [span_append, span_cons, span_nil]; omega)
      (by simp only [span_append, span_cons, span_nil]; omega) h1 h2
    exact absurd hd (by simp [separated_neighbours hsep hb])

theorem not_free_before (h : HeapRep s (pre ++ b :: post)) (hsep : Separated (pre ++ b :: post))
    (hb : b.owner.isNone) (hne : pre ≠ []) : ¬ FreeByte s (s.base + span hdrBytes pre - 1) := by
  intro hfree
  obtain ⟨us, d, vs, heq, hd, h1, h2⟩ := h.freeByte_iff.mp hfree
  obtain ⟨pre, d', rfl⟩ := List.eq_nil_or_concat' pre |>.resolve_left hne
  have hpos : 0 < hdrBytes := by decide
  rw [List.append_assoc, List.singleton_append] at heq hsep
  simp only [span_append, span_cons, span_nil] at h1 h2
  obtain ⟨-, rfl⟩ := block_unique heq (a := s.base) (by omega) (by omega) h1 h2
  exact absurd hb (by simp [separated_neighbours hsep hd])

/-- Once neighbours are merged, a maximal free range is one free block. -/
theorem freeRange_iff (h : HeapRep s blocks) (hsep : Separated blocks) : FreeRange s lo hi ↔
    ∃ pre b post, blocks = pre ++ b :: post ∧ b.owner.isNone ∧ lo = s.base + span hdrBytes pre ∧
      hi = lo + hdrBytes + b.size := by
  have hpos : 0 < hdrBytes := by decide
  constructor
  · rintro ⟨hlt, hfree, hbelow, habove⟩
    obtain ⟨pre, b, post, rfl, hb, h1, h2⟩ := h.freeByte_iff.mp (hfree lo (le_refl _) hlt)
    have hin {x : ℕ} (hx1 : s.base + span hdrBytes pre ≤ x)
        (hx2 : x < s.base + span hdrBytes pre + hdrBytes + b.size) : FreeByte s x :=
      h.freeByte_iff.mpr ⟨pre, b, post, rfl, hb, hx1, hx2⟩
    have hlo : lo = s.base + span hdrBytes pre := by
      rcases hbelow with hbase | hno
      · omega
      · by_contra hne
        exact hno (hin (by omega) (by omega))
    refine ⟨pre, b, post, rfl, hb, hlo, ?_⟩
    rcases Nat.lt_trichotomy hi (lo + hdrBytes + b.size) with hlt' | heq | hgt
    · exact absurd (hin (by omega) (by omega)) habove
    · exact heq
    · exact absurd (hfree _ (by omega) (hlo ▸ hgt)) (not_free_after h hsep hb)
  · rintro ⟨pre, b, post, rfl, hb, rfl, rfl⟩
    refine ⟨by omega, fun x hx1 hx2 => h.freeByte_iff.mpr ⟨pre, b, post, rfl, hb, hx1, hx2⟩, ?_,
      not_free_after h hsep hb⟩
    by_cases hnil : pre = []
    · left
      simp [hnil]
    · exact .inr (not_free_before h hsep hb hnil)

end Ranges

section Take
variable {s : KHeap} {live : List Client} {pre post : List (Block Client)} {b : Block Client}
  {x lo hi n size prev : ℕ}

theorem mem_addrs_bounds {a : ℕ} {bs : List (Block Client)} (h : x ∈ addrs hdrBytes a bs) :
    a ≤ x ∧ x < a + span hdrBytes bs := by
  obtain ⟨us, d, vs, rfl, rfl⟩ := mem_addrs.mp h
  rw [span_append, span_cons]
  unfold hdrBytes
  omega

/-- Taking a block keeps every other one, except for a link to it. -/
theorem take_other (h : HeapRep s (pre ++ b :: post)) (hb : b.owner.isNone)
    (hp : LastFree hdrBytes s.base pre prev) (hn : n ≤ b.size)
    (hx : x ∈ addrs hdrBytes s.base (pre ++ b :: post)) (hne : x ≠ s.base + span hdrBytes pre)
    (hlo : x ≤ lo) (hhi : hi ≤ x + hdrBytes + s.size x)
    (hlink : hi ≤ x + 8 ∨ x + hdrBytes ≤ lo ∨ s.magic x = kheapMagicUsed) :
    Agree s.mem (s.take prev (s.base + span hdrBytes pre) n).1.mem lo hi := by
  obtain ⟨-, -, -, -, -, -, hend⟩ := h.free_block hb
  obtain ⟨hmem, -, hsize⟩ := h.free_header hb
  have hfits := h.fits
  have hout := h.blocks_apart hmem hx hne.symm
  rw [hsize] at hout
  refine take_agree lo hi prev hsize (by omega) (by omega) (by omega) ?_ hn
  refine (h.lastFree_header hp).imp_right fun ⟨hpmem, hfree⟩ => ?_
  unfold OffLink
  by_cases hpx : prev = x
  · subst hpx
    rcases hlink with h1 | h1 | hused
    · exact .inl h1
    · exact .inr h1
    · exact absurd (hfree.symm.trans hused) (by decide)
  · have := h.blocks_apart hpmem hx hpx
    omega

/-- What `kmalloc` does with the block it takes. -/
theorem take_othersKept (h : HeapRep s (pre ++ b :: post)) (hb : b.owner.isNone)
    (hp : LastFree hdrBytes s.base pre prev) (hn : n ≤ b.size) (h0 : 0 < size) (hsize : size ≤ n) :
    OthersKept s (s.take prev (s.base + span hdrBytes pre) n).1 (s.base + span hdrBytes pre)
      (s.base + span hdrBytes pre + hdrBytes + b.size) := by
  obtain ⟨-, hrep⟩ := take_cut h hb hp hn h0 hsize
  obtain ⟨-, -, -, -, -, -, hspan⟩ :=
    cut_cons (c := ⟨s.base + span hdrBytes pre + 12, size⟩) hb hn
  have hbase := KHeap.take_base (s := s) (n := n) prev (s.base + span hdrBytes pre)
  refine ⟨_, _, h.tiles, hrep.tiles, fun x hx => ?_, fun x hmem hx => ?_⟩
  · rw [hbase]
    simp only [addrs_append, List.mem_append, addrs, List.mem_cons, hspan]
    constructor
    · rintro (hpre | rfl | hpost)
      · exact .inl hpre
      · unfold hdrBytes at hx
        omega
      · right
        right
        rwa [Nat.add_assoc, Nat.add_assoc, ← Nat.add_assoc] at hpost
    · rintro (hpre | hcut | hpost)
      · exact .inl hpre
      · have := mem_addrs_bounds hcut
        rw [hspan] at this
        omega
      · right
        right
        rwa [← Nat.add_assoc] at hpost
  · have hne : x ≠ s.base + span hdrBytes pre := by
      rintro rfl
      unfold hdrBytes at hx
      omega
    refine ⟨take_other h hb hp hn hmem hne (le_refl _) (by unfold hdrBytes; omega)
      (.inl (le_refl _)),
      take_other h hb hp hn hmem hne (by omega) (le_refl _) (.inr (.inl (le_refl _))),
      fun hused => ?_⟩
    exact (take_other h hb hp hn hmem hne (by omega) (by unfold hdrBytes; omega)
      (.inr (.inr hused))).load (le_refl (x + 8)) (le_refl (x + 8 + 4))

theorem kmalloc_complete_of (h : HeapLaid s live) (h0 : 0 < size) (hmax : size ≤ kheapSize) :
    ∃ r, s.kmalloc size = some r ∧ MallocComplete s size r := by
  obtain ⟨blocks, hrep, hsep, -⟩ := h
  have hround : alignUp size kheapAlign = roundEight size :=
    alignUp_eight (by unfold kheapSize at hmax; omega)
  have hroom {lo hi : ℕ} : RoomFor s size lo hi ↔ ∃ pre b post, blocks = pre ++ b :: post ∧
      b.owner.isNone ∧ lo = s.base + span hdrBytes pre ∧ hi = lo + hdrBytes + b.size ∧
        roundEight size ≤ b.size := by
    unfold RoomFor
    rw [freeRange_iff hrep hsep]
    constructor
    · rintro ⟨⟨pre, b, post, heq, hb, hlo, hhi⟩, hle⟩
      exact ⟨pre, b, post, heq, hb, hlo, hhi, by omega⟩
    · rintro ⟨pre, b, post, heq, hb, hlo, hhi, hle⟩
      exact ⟨⟨pre, b, post, heq, hb, hlo, hhi⟩, by omega⟩
  rcases kmalloc_firstFit hrep (Nat.ne_of_gt h0) with
    ⟨hr, hno⟩ | ⟨pre, b, post, prev, rfl, hb, hn, hpre, hp, hr⟩
  · refine ⟨_, hr, iff_of_true rfl ?_, fun _ => rfl, fun hne => absurd rfl hne⟩
    rintro ⟨lo, hi, hlh⟩
    obtain ⟨pre, b, post, rfl, hb, -, -, hle⟩ := hroom.mp hlh
    have := hno b (by simp) hb
    omega
  · rw [hround] at hn hpre hr
    have hsize : size ≤ roundEight size := by
      unfold roundEight
      omega
    have hthis := hroom.mpr ⟨pre, b, post, rfl, hb, rfl, rfl, hn⟩
    obtain ⟨hptr, -⟩ := take_cut hrep hb hp hn h0 hsize
    have hne : (s.take prev (s.base + span hdrBytes pre) (roundEight size)).2 ≠ 0 := by
      rw [hptr]
      omega
    refine ⟨_, hr, iff_of_false hne fun hno => hno ⟨_, _, hthis⟩, fun h => absurd h hne,
      fun _ => ⟨_, _, hthis, hptr, fun lo' hi' hlh => ?_, take_othersKept hrep hb hp hn h0 hsize⟩⟩
    obtain ⟨us, d, vs, heq, hd, rfl, -, hle⟩ := hroom.mp hlh
    rcases split_cases heq with ⟨rfl, -⟩ | ⟨zs, rfl⟩ | ⟨zs, rfl⟩
    · exact le_refl _
    · rw [span_append]
      omega
    · have := hpre d (by simp) hd
      omega

/-- In every state that valid calls lead to without a wrapped one, `kmalloc` of 1 to `KHEAP_SIZE`
bytes returns null exactly when no maximal free range has room, and takes the lowest one that
has. -/
theorem kmalloc_complete {heapVa : ℕ} (hpos : 0 < heapVa) (hfits : heapVa + kheapSize < 4294967296)
    {st : HeapState} (hst : HeapUnwrapped heapVa st) (h0 : 0 < size) (hmax : size ≤ kheapSize) :
    ∃ r, st.heap.kmalloc size = some r ∧ MallocComplete st.heap size r :=
  kmalloc_complete_of (hst.laid hpos hfits).2 h0 hmax

/-- On a fresh heap 64 bytes are there. -/
theorem kmalloc_complete_fresh : ∃ r, freshHeap.heap.kmalloc 64 = some r ∧
    MallocComplete freshHeap.heap 64 r :=
  kmalloc_complete (by decide) (by decide) freshHeap_unwrapped (by decide) (by decide)

theorem FreeRange.le_capacity (h : FreeRange s lo hi) : hi - lo ≤ s.capacity := by
  have hlt := h.nonempty
  obtain ⟨-, -, h1, -⟩ := h.free lo (le_refl _) hlt
  obtain ⟨-, -, -, h2, -⟩ := h.free (hi - 1) (by omega) (by omega)
  omega

/-- `kmalloc_aligned(0xFFFFFFF0, 16)` gets a block of eight bytes and leaves its tag in the next
header, whose size is an address from then on: `kmalloc(KHEAP_SIZE)` is served. -/
theorem kmalloc_complete_fails : ∃ st, HeapReachable 0xC0100000 st ∧
    ∃ r, st.heap.kmalloc kheapSize = some r ∧ ¬ MallocComplete st.heap kheapSize r := by
  obtain ⟨st, hst, hcap, hr⟩ := exists_reachable_heap [.op (.aligned 0xFFFFFFF0 16)]
    (fun st => st.heap.capacity = kheapSize ∧
      (st.heap.kmalloc kheapSize).any fun r => decide (r.2 ≠ 0)) (by decide +kernel)
  obtain ⟨r, hr, hb⟩ := (Option.any_eq_true _ _).mp hr
  refine ⟨st, hst, r, hr, fun hc => of_decide_eq_true hb (hc.null_iff.mpr ?_)⟩
  rintro ⟨lo, hi, hrange, hroom⟩
  have := hrange.le_capacity
  have hround : roundEight kheapSize = kheapSize := by decide
  rw [hround] at hroom
  unfold hdrBytes at hroom
  omega

end Take

end Leg

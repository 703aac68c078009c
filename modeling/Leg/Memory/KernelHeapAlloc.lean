import Leg.Memory.KernelHeapLayout

/-! What `kmalloc` does to the blocks: it takes the first free block that is large enough,
and cuts off its tail if that leaves room for another block. -/
namespace Leg
open Tiling Memory

section Take
variable {s : KHeap} {pre post : List (Block Client)} {b : Block Client} {prev n : ℕ}

@[simp] theorem KHeap.splitTail_base (a split : ℕ) : (s.splitTail a split n).base = s.base := rfl

@[simp] theorem KHeap.markUsed_base (a : ℕ) : (s.markUsed a).base = s.base := rfl

@[simp] theorem KHeap.markUsed_capacity (a : ℕ) : (s.markUsed a).capacity = s.capacity := rfl

@[simp] theorem KHeap.markUsed_freeList (a : ℕ) : (s.markUsed a).freeList = s.freeList := rfl

@[simp] theorem KHeap.take_base (prev a : ℕ) : (s.take prev a n).1.base = s.base := by
  simp only [KHeap.take, KHeap.markUsed_base]
  split <;> simp

/-- The header of the cut block, that of its tail, and the bytes a cut leaves alone. -/
theorem splitTail_loads {a size nx : ℕ} (hs : s.size a = size) (hx : s.nextFree a = nx)
    (hn : n + 12 ≤ size) (hsize : size < 4294967296) :
    let m := (s.splitTail a (a + 12 + n) n).mem
    m.load (a + 4) = n ∧ m.load (a + 12 + n) = kheapMagicFree ∧
      m.load (a + 12 + n + 4) = size - n - 12 ∧ m.load (a + 12 + n + 8) = nx ∧
      (∀ lo hi, hi ≤ a + 4 → Agree s.mem m lo hi) ∧
      ∀ lo hi, a + 24 + n ≤ lo → Agree s.mem m lo hi := by
  have hx32 : nx < 4294967296 := hx ▸ load_lt _ _
  have hfree : kheapMagicFree < 4294967296 := by decide
  unfold KHeap.size at hs
  unfold KHeap.nextFree at hx
  have hw : wsub (wsub size n) 12 = size - n - 12 := by
    rw [wsub_of_le (a := size) (by omega) hsize, wsub_of_le (by omega) (by omega)]
  simp only [KHeap.splitTail, KHeap.setMagic, KHeap.setSize, KHeap.setNextFree, KHeap.size,
    KHeap.nextFree, hdrBytes]
  simp (disch := omega) only [load_store_of_disjoint, hs, hx, hw, load_store_self, true_and]
  refine ⟨fun lo hi hhi => ?_, fun lo hi hlo => ?_⟩
  · exact (store_agree _ _ _ (by omega)).trans ((store_agree _ _ _ (by omega)).trans
      ((store_agree _ _ _ (by omega)).trans (store_agree _ _ _ (by omega))))
  · exact (store_agree _ _ _ (by omega)).trans ((store_agree _ _ _ (by omega)).trans
      ((store_agree _ _ _ (by omega)).trans (store_agree _ _ _ (by omega))))

theorem markUsed_loads (s : KHeap) (a : ℕ) :
    let m := (s.markUsed a).mem
    m.load a = kheapMagicUsed ∧ m.load (a + 4) = s.size a ∧ m.load (a + 8) = 0 ∧
      (s.markUsed a).used = u32 (s.used + s.size a) ∧
      (∀ lo hi, hi ≤ a → Agree s.mem m lo hi) ∧ ∀ lo hi, a + 12 ≤ lo → Agree s.mem m lo hi := by
  have hused : kheapMagicUsed < 4294967296 := by decide
  simp only [KHeap.markUsed, KHeap.setMagic, KHeap.setNextFree, KHeap.size]
  simp (disch := omega) only [load_store_of_disjoint, load_store_self, true_and]
  refine ⟨fun lo hi hhi => ?_, fun lo hi hlo => ?_⟩
  · exact (store_agree _ _ _ (by omega)).trans (store_agree _ _ _ (by omega))
  · exact (store_agree _ _ _ (by omega)).trans (store_agree _ _ _ (by omega))

theorem HeapRep.free_block (h : HeapRep s (pre ++ b :: post)) (hb : b.owner.isNone) :
    let a := s.base + span hdrBytes pre
    Laid s.mem s.base pre a ∧ s.freeList = nextFree hdrBytes s.base pre a ∧
      s.magic a = kheapMagicFree ∧ s.size a = b.size ∧
      s.nextFree a = nextFree hdrBytes (a + hdrBytes + b.size) post 0 ∧
      Laid s.mem (a + hdrBytes + b.size) post 0 ∧
      a + hdrBytes + b.size + span hdrBytes post = s.base + kheapSize := by
  have hl := laid_append.mp h.laid
  have hf := h.freeList
  have hc := h.covers
  rw [nextFree_append] at hf
  simp only [nextFree, hb, if_true] at hl hf
  rw [span_append, span_cons] at hc
  obtain ⟨hpre, hhead, hpost⟩ := hl
  unfold Header at hhead
  rw [Option.isNone_iff_eq_none] at hb
  rw [hb] at hhead
  exact ⟨hpre, hf, hhead.2.1, hhead.1, hhead.2.2, hpost, by omega⟩

/-- The heap with `pre` linked past the block at its end, and that block in use: the blocks
`post` are those the memory held behind its body before. -/
theorem HeapRep.marked {t : KHeap} {base a size nx bytes : ℕ} (hbase : t.base = base)
    (hpos : 0 < base) (hcap : t.capacity = kheapSize) (hfits : base + kheapSize < 4294967296)
    (ha : base + span hdrBytes pre = a) (hpre : Laid t.mem base pre nx)
    (hf : t.freeList = nextFree hdrBytes base pre nx) (hsize : t.size a = size)
    (hpost : Laid t.mem (a + hdrBytes + size) post 0)
    (hnx : nx = nextFree hdrBytes (a + hdrBytes + size) post 0)
    (hend : a + hdrBytes + size + span hdrBytes post = base + kheapSize)
    (hused : t.used = usedSum pre + usedSum post) (h0 : 0 < bytes) (hbytes : bytes ≤ size) :
    HeapRep (t.markUsed a) (pre ++ ⟨size, some ⟨a + 12, bytes⟩⟩ :: post) := by
  subst hbase
  obtain ⟨hm, hms, hmn, hmu, hlow, hhigh⟩ := markUsed_loads t a
  rw [hsize] at hms hmu
  have hsum1 := usedSum_le_span hdrBytes pre
  have hsum2 := usedSum_le_span hdrBytes post
  have hsome : (some (⟨a + 12, bytes⟩ : Client)).isNone = false := rfl
  refine ⟨hpos, hcap, hfits, laid_append.mpr ⟨?_, ⟨?_, ?_⟩, ?_⟩, ?_, ?_, ?_⟩
  · simp only [nextFree, hsome, Bool.false_eq_true, if_false, KHeap.markUsed_base, ha, ← hnx]
    exact hpre.transport (hlow _ _ (by omega))
  · simpa [ha] using hms
  · simp only [KHeap.markUsed_base, ha]
    refine ⟨hm, hmn, ⟨?_, ?_, h0, .inl rfl⟩⟩
    · exact le_refl _
    · unfold hdrBytes
      dsimp only
      omega
  · simp only [KHeap.markUsed_base, ha]
    exact hpost.transport (hhigh _ _ (by unfold hdrBytes; omega))
  · rw [span_append, span_cons]
    dsimp only
    omega
  · rw [KHeap.markUsed_freeList, KHeap.markUsed_base, nextFree_append]
    simp only [nextFree, hsome, Bool.false_eq_true, if_false, ha, ← hnx]
    exact hf
  · rw [hmu, hused, usedSum_append, usedSum_cons]
    simp only [hsome, Bool.false_eq_true, if_false]
    unfold u32 kheapSize at *
    omega

/-- Taking a block that is not cut. -/
theorem take_whole (h : HeapRep s (pre ++ b :: post)) (hb : b.owner.isNone)
    (hp : LastFree hdrBytes s.base pre prev) (hsplit : ¬ n + 12 + 32 ≤ b.size) (hn : n ≤ b.size)
    {bytes : ℕ} (h0 : 0 < bytes) (hbytes : bytes ≤ n) :
    (s.take prev (s.base + span hdrBytes pre) n).2 = s.base + span hdrBytes pre + 12 ∧
      HeapRep (s.take prev (s.base + span hdrBytes pre) n).1
        (pre ++ ⟨b.size, some ⟨s.base + span hdrBytes pre + 12, bytes⟩⟩ :: post) := by
  obtain ⟨hpre, hf, -, hsize, hnx, hpost, hend⟩ := h.free_block hb
  have hfits := h.fits
  have hu := h.used
  rw [usedSum_append, usedSum_cons, if_pos hb, Nat.zero_add] at hu
  have hnx32 : s.nextFree (s.base + span hdrBytes pre) < 4294967296 := load_lt _ _
  obtain ⟨hrl, hrf, hrag⟩ := relink_laid hpre hf hp h.base_pos hnx32
  have hlarge : ¬ u32 (n + hdrBytes + kheapMinSplit) ≤ b.size := by
    unfold u32 hdrBytes kheapMinSplit kheapSize at *
    omega
  simp only [KHeap.take, hsize, if_neg hlarge]
  generalize ha : s.base + span hdrBytes pre = a at *
  refine ⟨?_, HeapRep.marked (KHeap.relink_base _) h.base_pos ?_ hfits ha hrl hrf ?_ ?_ hnx hend ?_
    h0 (by omega)⟩
  · unfold u32 hdrBytes kheapSize at *
    omega
  · rw [KHeap.relink_capacity]
    exact h.capacity
  · rw [← hsize]
    exact (hrag (a + 12)).load (by omega) (by omega)
  · exact hpost.transport ((hrag _).mono (by omega) (le_refl _))
  · rwa [KHeap.relink_used]

/-- Taking a block whose tail becomes a free block. -/
theorem take_split (h : HeapRep s (pre ++ b :: post)) (hb : b.owner.isNone)
    (hp : LastFree hdrBytes s.base pre prev) (hsplit : n + 12 + 32 ≤ b.size)
    {bytes : ℕ} (h0 : 0 < bytes) (hbytes : bytes ≤ n) :
    (s.take prev (s.base + span hdrBytes pre) n).2 = s.base + span hdrBytes pre + 12 ∧
      HeapRep (s.take prev (s.base + span hdrBytes pre) n).1
        (pre ++ ⟨n, some ⟨s.base + span hdrBytes pre + 12, bytes⟩⟩ ::
          ⟨b.size - n - 12, none⟩ :: post) := by
  obtain ⟨hpre, hf, -, hsize, hnx, hpost, hend⟩ := h.free_block hb
  have hfits := h.fits
  have hu := h.used
  rw [usedSum_append, usedSum_cons, if_pos hb, Nat.zero_add] at hu
  have hlarge : u32 (n + hdrBytes + kheapMinSplit) ≤ b.size := by
    unfold u32 hdrBytes kheapMinSplit kheapSize at *
    omega
  simp only [KHeap.take, hsize, if_pos hlarge]
  generalize ha : s.base + span hdrBytes pre = a at *
  have hsp : u32 (a + hdrBytes + n) = a + 12 + n := by
    unfold u32 hdrBytes kheapSize at *
    omega
  rw [hsp]
  obtain ⟨hl4, hm, hms, hmn, hlow, hhigh⟩ := splitTail_loads (n := n) hsize hnx (by omega)
    (by unfold kheapSize at *; omega)
  have hsplit32 : a + 12 + n < 4294967296 := by
    unfold hdrBytes kheapSize at *
    omega
  obtain ⟨hrl, hrf, hrag⟩ := relink_laid (s := s.splitTail a (a + 12 + n) n)
    (hpre.transport (hlow _ _ (by omega))) hf hp h.base_pos hsplit32
  have hbase : (s.splitTail a (a + 12 + n) n).base = s.base := rfl
  rw [hbase] at hrl hrf hrag
  have hload (x : ℕ) (hx : a ≤ x) :
      ((s.splitTail a (a + 12 + n) n).relink prev (a + 12 + n)).mem.load x =
      (s.splitTail a (a + 12 + n) n).mem.load x := (hrag (x + 4)).load (by omega) (le_refl _)
  refine ⟨?_, HeapRep.marked ((KHeap.relink_base _).trans hbase) h.base_pos ?_ hfits ha hrl
    hrf ?_ ?_
    ?_ ?_ ?_ h0 hbytes⟩
  · unfold u32 hdrBytes kheapSize at *
    omega
  · rw [KHeap.relink_capacity]
    exact h.capacity
  · rw [KHeap.size, hload _ (by omega), hl4]
  · -- the tail of the cut block, then the blocks that were behind it
    have htail : a + hdrBytes + n + hdrBytes + (b.size - n - 12) = a + hdrBytes + b.size := by
      unfold hdrBytes
      omega
    refine ⟨⟨?_, ?_, ?_⟩, ?_⟩
    · rw [hload _ (by omega)]
      exact hms
    · rw [hload _ (by omega)]
      exact hm
    · rw [hload _ (by omega), htail]
      exact hmn
    · dsimp only
      rw [htail]
      refine hpost.transport (Agree.trans (hhigh _ _ ?_) ((hrag _).mono ?_ (le_refl _)))
      · unfold hdrBytes
        omega
      · omega
  · simp [nextFree, hdrBytes]
  · rw [span_cons, ← hend]
    unfold hdrBytes
    dsimp only
    omega
  · rw [KHeap.relink_used, usedSum_cons]
    simp only [Option.isNone_none, if_true, Nat.zero_add]
    exact hu

end Take

section Kmalloc
variable {s : KHeap} {pre suf blocks : List (Block Client)} {prev n : ℕ}

/-- The search passes the used blocks and the free ones that are too small. -/
theorem kmallocLoop_spec (fuel : ℕ) (h : HeapRep s (pre ++ suf))
    (hp : LastFree hdrBytes s.base pre prev) (hsmall : NoRoom n pre) (hfuel : suf.length < fuel) :
    let r := s.kmallocLoop n fuel prev (nextFree hdrBytes (s.base + span hdrBytes pre) suf 0)
    (r = some (s, 0) ∧ NoRoom n (pre ++ suf)) ∨
      ∃ pre' b post prev', pre ++ suf = pre' ++ b :: post ∧ b.owner.isNone ∧ n ≤ b.size ∧
        NoRoom n pre' ∧ LastFree hdrBytes s.base pre' prev' ∧
        r = some (s.take prev' (s.base + span hdrBytes pre') n) := by
  induction suf generalizing pre prev fuel with
  | nil =>
    left
    obtain ⟨fuel, rfl⟩ := Nat.exists_eq_succ_of_ne_zero (Nat.ne_zero_of_lt hfuel)
    rw [List.append_nil]
    exact ⟨by simp [nextFree, KHeap.kmallocLoop], hsmall⟩
  | cons b suf ih =>
    have hassoc : pre ++ b :: suf = (pre ++ [b]) ++ suf := by simp
    have haddr : s.base + span hdrBytes (pre ++ [b]) =
        s.base + span hdrBytes pre + hdrBytes + b.size := by
      rw [span_append, span_cons, span_nil]
      omega
    rw [List.length_cons] at hfuel
    cases hb : b.owner.isNone with
    | false =>
      simp only [nextFree, hb, Bool.false_eq_true, if_false]
      have hsmall' : NoRoom n (pre ++ [b]) := by simp [hsmall, hb]
      have := ih fuel (hassoc ▸ h) (hp.used hb) hsmall' (by omega)
      rwa [haddr, ← hassoc] at this
    | true =>
      obtain ⟨-, -, hmagic, hsize, hnx, -, -⟩ := h.free_block hb
      obtain ⟨fuel, rfl⟩ := Nat.exists_eq_succ_of_ne_zero (Nat.ne_zero_of_lt hfuel)
      have hne : s.base + span hdrBytes pre ≠ 0 := by
        have := h.base_pos
        omega
      simp only [nextFree, hb, if_true, KHeap.kmallocLoop, hne, if_false, hmagic, ne_eq, not_true,
        hsize]
      by_cases hn : n ≤ b.size
      · right
        rw [if_pos hn]
        exact ⟨pre, b, suf, prev, rfl, hb, hn, hsmall, hp, rfl⟩
      · rw [if_neg hn, hnx]
        have hsmall' : NoRoom n (pre ++ [b]) := by simpa [hsmall] using fun _ => Nat.lt_of_not_le hn
        have := ih fuel (hassoc ▸ h) (.free hb) hsmall' (by omega)
        rwa [haddr, ← hassoc] at this

theorem kmalloc_firstFit (h : HeapRep s blocks) {size : ℕ} (h0 : size ≠ 0) :
    (s.kmalloc size = some (s, 0) ∧ NoRoom (alignUp size kheapAlign) blocks) ∨
      ∃ pre b post prev, blocks = pre ++ b :: post ∧ b.owner.isNone ∧
        alignUp size kheapAlign ≤ b.size ∧ NoRoom (alignUp size kheapAlign) pre ∧
        LastFree hdrBytes s.base pre prev ∧ s.kmalloc size =
          some (s.take prev (s.base + span hdrBytes pre) (alignUp size kheapAlign)) := by
  have hlen : blocks.length ≤ span hdrBytes blocks := length_le_span blocks (by decide)
  have hloop := kmallocLoop_spec (n := alignUp size kheapAlign) (s.capacity + 1)
    (show HeapRep s ([] ++ blocks) from h) .nil (noRoom_nil _)
      (by rw [h.capacity, ← h.covers]; omega)
  have hcur : s.freeList = nextFree hdrBytes (s.base + span hdrBytes ([] : List (Block Client)))
      blocks 0 := h.freeList
  rw [KHeap.kmalloc, if_neg h0, hcur]
  exact hloop

/-- The free block `b` once the client `c` has its first `n` bytes: whole, or cut in two. -/
def cut (n : ℕ) (c : Client) (b : Block Client) : List (Block Client) :=
  if n + 12 + 32 ≤ b.size then [⟨n, some c⟩, ⟨b.size - n - 12, none⟩] else [⟨b.size, some c⟩]

theorem alignUp_eight {size : ℕ} (h : size + 7 < 4294967296) :
    alignUp size kheapAlign = (size + 7) / 8 * 8 := by
  have := alignUp_two_pow (x := size) (k := 3) (by decide)
  rw [show size + 2 ^ 3 - 1 = size + 7 from rfl, u32_of_lt h] at this
  exact this

theorem take_cut {post : List (Block Client)} {b : Block Client} (h : HeapRep s (pre ++ b :: post))
    (hb : b.owner.isNone) (hp : LastFree hdrBytes s.base pre prev) (hn : n ≤ b.size) {bytes : ℕ}
    (h0 : 0 < bytes) (hbytes : bytes ≤ n) :
    (s.take prev (s.base + span hdrBytes pre) n).2 = s.base + span hdrBytes pre + 12 ∧
      HeapRep (s.take prev (s.base + span hdrBytes pre) n).1
        (pre ++ (cut n ⟨s.base + span hdrBytes pre + 12, bytes⟩ b ++ post)) := by
  unfold cut
  split
  next hcut => exact take_split h hb hp hcut h0 hbytes
  next hcut => exact take_whole h hb hp hcut hn h0 hbytes

/-- The heap `t` differs from one with the blocks `blocks` in a block now held by a client. -/
def Gains (blocks : List (Block Client)) (t : KHeap) (c : Client) (start size : ℕ) : Prop :=
  ∃ pre post, HeapRep t (pre ++ ⟨size, some c⟩ :: post) ∧
    Separated (pre ++ ⟨size, some c⟩ :: post) ∧ owners blocks = owners pre ++ owners post ∧
    start = t.base + span hdrBytes pre + hdrBytes

theorem separated_taken {pre post : List (Block Client)} {b : Block Client} {size : ℕ}
    {c : Client} (h : Separated (pre ++ b :: post)) :
    Separated (pre ++ ⟨size, some c⟩ :: post) := by
  unfold Separated at *
  rw [List.isChain_append] at h ⊢
  obtain ⟨h1, h2, h3⟩ := h
  rw [List.isChain_cons] at h2 ⊢
  refine ⟨h1, ⟨fun y _ => .inl rfl, h2.2⟩, fun x _ y hy => .inr ?_⟩
  cases hy
  rfl

theorem separated_split {pre post : List (Block Client)} {b : Block Client} {size rest : ℕ}
    {c : Client} (h : Separated (pre ++ b :: post)) (hb : b.owner.isNone) :
    Separated (pre ++ ⟨size, some c⟩ :: ⟨rest, none⟩ :: post) := by
  unfold Separated at *
  rw [List.isChain_append] at h ⊢
  obtain ⟨h1, h2, h3⟩ := h
  rw [List.isChain_cons] at h2
  refine ⟨h1, List.isChain_cons_cons.mpr ⟨.inl rfl, List.isChain_cons.mpr ⟨fun y hy => ?_, h2.2⟩⟩,
    fun x _ y hy => .inr ?_⟩
  · -- the block behind the cut one is in use, as that one was free
    exact .inr ((h2.1 y hy).resolve_left (by simp [hb]))
  · cases hy
    rfl

theorem cut_cons {c : Client} {b : Block Client} (hb : b.owner.isNone) (hn : n ≤ b.size) :
    ∃ size rest, cut n c b = ⟨size, some c⟩ :: rest ∧ n ≤ size ∧ owners rest = [] ∧
      (∀ pre post, Separated (pre ++ b :: post) →
        Separated (pre ++ ⟨size, some c⟩ :: (rest ++ post))) ∧
      span hdrBytes (cut n c b) = hdrBytes + b.size := by
  unfold cut
  split
  next hcut =>
    refine ⟨n, [⟨b.size - n - 12, none⟩], rfl, le_refl n, rfl,
      fun pre post hsep => separated_split hsep hb, ?_⟩
    rw [span_cons, span_cons, span_nil]
    unfold hdrBytes
    dsimp only
    omega
  next => exact ⟨b.size, [], rfl, hn, rfl, fun pre post hsep => separated_taken hsep, by simp⟩

/-- `kmalloc` of a size in range either finds no room and changes nothing, or hands the
client a block of its own. -/
theorem kmalloc_spec (h : HeapRep s blocks) (hsep : Separated blocks) {size : ℕ}
    (h0 : 0 < size) (hmax : size + 7 < 4294967296) :
    s.kmalloc size = some (s, 0) ∨ ∃ t p sz, s.kmalloc size = some (t, p) ∧ p ≠ 0 ∧
      t.base = s.base ∧ Gains blocks t ⟨p, size⟩ p sz ∧ size ≤ sz := by
  rcases kmalloc_firstFit h (Nat.ne_of_gt h0) with
    ⟨hr, -⟩ | ⟨pre, b, post, prev, rfl, hb, hn, -, hp, hr⟩
  · exact .inl hr
  right
  have hround : size ≤ alignUp size kheapAlign := by
    rw [alignUp_eight hmax]
    omega
  have hpos := h.base_pos
  have hbase := KHeap.take_base (s := s) (n := alignUp size kheapAlign) prev
    (s.base + span hdrBytes pre)
  obtain ⟨hp2, hrep⟩ := take_cut h hb hp hn h0 hround
  obtain ⟨sz, rest, hcut, hsz, hown, hsep', -⟩ := cut_cons (n := alignUp size kheapAlign)
    (c := ⟨s.base + span hdrBytes pre + 12, size⟩) hb hn
  rw [hcut] at hrep
  rw [hr]
  generalize s.take prev (s.base + span hdrBytes pre) (alignUp size kheapAlign) = r at *
  rw [← hp2] at hrep hsep'
  refine ⟨r.1, r.2, sz, rfl, by omega, hbase,
    ⟨pre, rest ++ post, hrep, hsep' _ _ hsep, ?_, ?_⟩, by omega⟩
  · rw [owners_append, owners_append, hown]
    simp [owners, Option.isNone_iff_eq_none.mp hb]
  · rw [hbase]
    exact hp2

end Kmalloc

section Clients
variable {s : KHeap} {pre post blocks : List (Block Client)} {size : ℕ} {c d : Client}

/-- Writes inside the body of a used block, which may change where its client's bytes lie. -/
theorem HeapRep.reowned (h : HeapRep s (pre ++ ⟨size, some c⟩ :: post)) {m : Memory} {a : ℕ}
    (ha : s.base + span hdrBytes pre = a)
    (hlow : ∀ lo hi, hi ≤ a + hdrBytes → Agree s.mem m lo hi)
    (hhigh : ∀ lo hi, a + hdrBytes + size ≤ lo → Agree s.mem m lo hi)
    (hc : HoldsClient m a size d) :
    HeapRep { s with mem := m } (pre ++ ⟨size, some d⟩ :: post) := by
  have hl := laid_append.mp h.laid
  rw [ha] at hl
  obtain ⟨hpre, ⟨hsize, hmagic, hnext, -⟩, hpost⟩ := hl
  have hf := h.freeList
  have hu := h.used
  have hcov := h.covers
  rw [nextFree_append] at hf
  rw [usedSum_append, usedSum_cons] at hu
  rw [span_append, span_cons] at hcov
  refine ⟨h.base_pos, h.capacity, h.fits, laid_append.mpr ⟨?_, ?_, ?_⟩, ?_, ?_, ?_⟩
  · dsimp only
    rw [ha]
    exact hpre.transport (hlow _ _ (by omega))
  · dsimp only
    rw [ha]
    have h0 : m.load a = s.mem.load a := (hlow a (a + 4) (by unfold hdrBytes; omega)).load
      (le_refl a) (le_refl _)
    have h4 : m.load (a + 4) = s.mem.load (a + 4) :=
      (hlow a (a + 8) (by unfold hdrBytes; omega)).load
      (by omega) (by omega)
    have h8 : m.load (a + 8) = s.mem.load (a + 8) :=
      (hlow a (a + 12) (by unfold hdrBytes; omega)).load
      (by omega) (by omega)
    exact ⟨h4.trans hsize, h0.trans hmagic, h8.trans hnext, hc⟩
  · dsimp only
    rw [ha]
    exact hpost.transport (hhigh _ _ (by dsimp only; omega))
  · rw [span_append, span_cons]
    exact hcov
  · dsimp only
    rw [nextFree_append]
    exact hf
  · rw [usedSum_append, usedSum_cons]
    exact hu

/-- The heap is laid out in separated blocks, and these clients hold the used ones. -/
def HeapOk (s : KHeap) (live : List Client) : Prop :=
  ∃ blocks, HeapRep s blocks ∧ Separated blocks ∧ (owners blocks).Perm live

theorem Gains.heapOk {t : KHeap} {live : List Client} {start : ℕ} (h : Gains blocks t c start size)
    (hl : (owners blocks).Perm live) : HeapOk t (c :: live) := by
  obtain ⟨pre, post, hrep, hsep, howners, -⟩ := h
  refine ⟨_, hrep, hsep, ?_⟩
  have : owners (pre ++ ⟨size, some c⟩ :: post) = owners pre ++ c :: owners post := by
    simp [owners]
  rw [this]
  exact List.perm_middle.trans (.cons c (howners ▸ hl))

/-- The result `r` of an allocation is null and the heap unchanged, or a pointer that joins the
live ones. -/
def Allocates (s : KHeap) (live : List Client) (size : ℕ) (r : Option (KHeap × ℕ)) : Prop :=
  r = some (s, 0) ∨
    ∃ t p, r = some (t, p) ∧ p ≠ 0 ∧ t.base = s.base ∧ HeapOk t (⟨p, size⟩ :: live)

theorem kmalloc_heapOk {live : List Client} (h : HeapOk s live) (hmax : size + 7 < 4294967296) :
    Allocates s live size (s.kmalloc size) := by
  obtain ⟨blocks, hrep, hsep, hperm⟩ := h
  rcases Nat.eq_zero_or_pos size with rfl | h0
  · exact .inl rfl
  · refine (kmalloc_spec hrep hsep h0 hmax).imp id ?_
    rintro ⟨t, p, sz, hr, hp, hbase, hg, -⟩
    exact ⟨t, p, hr, hp, hbase, hg.heapOk hperm⟩

theorem kzalloc_heapOk {live : List Client} (h : HeapOk s live) (hmax : size + 7 < 4294967296) :
    Allocates s live size (s.kzalloc size) := by
  obtain ⟨blocks, hrep, hsep, hperm⟩ := h
  unfold KHeap.kzalloc
  rcases Nat.eq_zero_or_pos size with rfl | h0
  · exact .inl rfl
  · rcases kmalloc_spec hrep hsep h0 hmax with
      hr | ⟨t, p, sz, hr, hp, hbase, ⟨pre, post, ht, hts, howners, hstart⟩, hsz⟩
    · left
      simp [hr]
    · right
      simp only [hr, hp, ne_eq, not_false_eq_true, if_true]
      -- clearing the requested bytes is a write inside the new block's body
      have hz := ht.reowned (d := ⟨p, size⟩) (m := t.mem.fill p size 0) rfl
        (fun lo hi hhi => fill_agree _ _ _ _ (.inl (by omega)))
        (fun lo hi hlo => fill_agree _ _ _ _ (.inr (by omega)))
        ⟨by dsimp only; omega, by dsimp only; omega, h0, .inl hstart⟩
      have hg : Gains blocks { t with mem := t.mem.fill p size 0 } ⟨p, size⟩ p sz :=
        ⟨pre, post, hz, hts, howners, hstart⟩
      exact ⟨_, _, rfl, hp, hbase, hg.heapOk hperm⟩

theorem alignUp_bounds {x k : ℕ} (hk : k ≤ 32) (h : x + 2 ^ k - 1 < 4294967296) :
    x ≤ alignUp x (2 ^ k) ∧ alignUp x (2 ^ k) ≤ x + 2 ^ k - 1 := by
  have hpos : 0 < 2 ^ k := Nat.two_pow_pos k
  rw [alignUp_two_pow hk, u32_of_lt h]
  have h1 := Nat.div_mul_le_self (x + 2 ^ k - 1) (2 ^ k)
  have h2 := Nat.lt_div_mul_add (a := x + 2 ^ k - 1) hpos
  omega

theorem alignment_pow {alignment : ℕ} (bound : ℕ) (h0 : alignment ≠ 0)
    (hpow : alignment &&& (alignment - 1) = 0) (hle : alignment < 2 ^ bound) (hb : 4 ≤ bound) :
    ∃ k, (if alignment < kheapAlign then kheapAlign else alignment) = 2 ^ k ∧
      3 ≤ k ∧ k < bound := by
  obtain ⟨k, rfl⟩ := Nat.ne_zero_and_sub_one_eq_zero_iff_isPowerOfTwo.mp ⟨h0, hpow⟩
  split
  · exact ⟨3, rfl, le_refl 3, by omega⟩
  next hge =>
    refine ⟨k, rfl, ?_, (Nat.pow_lt_pow_iff_right (by decide)).mp hle⟩
    by_contra hlt
    have := Nat.pow_lt_pow_right (a := 2) (by decide) (Nat.lt_of_not_le hlt)
    exact hge this

/-- What `kmalloc_aligned` does in the body of the block it got: the aligned pointer and the tag
that leads back from it. -/
theorem aligned_client (m : Memory) {a n k : ℕ} (hk : k ≤ 32) (hs0 : 0 < size)
    (hroom : size + 2 ^ k + 8 ≤ n) (hend : a + hdrBytes + n < 4294967296) :
    let aligned := alignUp (u32 (a + hdrBytes + alignMetaBytes)) (2 ^ k)
    let tagAt := wsub aligned alignMetaBytes
    let m' := (m.store tagAt (a + hdrBytes)).store (tagAt + 4) alignTag
    aligned ≠ 0 ∧ HoldsClient m' a n ⟨aligned, size⟩ ∧
      (∀ lo hi, hi ≤ a + hdrBytes → Agree m m' lo hi) ∧
      ∀ lo hi, a + hdrBytes + n ≤ lo → Agree m m' lo hi := by
  have hpos : 0 < 2 ^ k := Nat.two_pow_pos k
  have hraw8 : u32 (a + hdrBytes + alignMetaBytes) = a + hdrBytes + 8 := by
    rw [u32_of_lt (by unfold alignMetaBytes; omega)]
    rfl
  rw [hraw8]
  obtain ⟨hlo, hhi⟩ := alignUp_bounds (x := a + hdrBytes + 8) (k := k) hk (by omega)
  generalize alignUp (a + hdrBytes + 8) (2 ^ k) = aligned at *
  have htag : wsub aligned alignMetaBytes = aligned - 8 :=
    wsub_of_le (by unfold alignMetaBytes; omega) (by omega)
  simp only [htag]
  have htag32 : alignTag < 4294967296 := by decide
  have hraw32 : a + hdrBytes < 4294967296 := by omega
  refine ⟨by omega, ⟨by dsimp only; omega, by dsimp only; omega, hs0, .inr ⟨?_, ?_, ?_⟩⟩,
    fun lo hi h => ?_, fun lo hi h => ?_⟩
  · unfold alignMetaBytes
    dsimp only
    omega
  · dsimp only
    rw [load_store_of_disjoint _ _ (by omega), load_store_self _ _ hraw32]
  · have hat : aligned - 8 + 4 = aligned - 4 := by omega
    rw [hat]
    exact load_store_self _ _ htag32
  · exact (store_agree _ _ _ (.inl (by omega))).trans (store_agree _ _ _ (.inl (by omega)))
  · exact (store_agree _ _ _ (.inr (by omega))).trans (store_agree _ _ _ (.inr (by omega)))

theorem kmallocAligned_heapOk {live : List Client} {alignment : ℕ} (h : HeapOk s live)
    (hmax : size ≤ kheapSize) (halign : alignment ≤ kheapSize) :
    Allocates s live size (s.kmallocAligned size alignment) := by
  obtain ⟨blocks, hrep, hsep, hperm⟩ := h
  unfold KHeap.kmallocAligned
  split
  next => exact .inl rfl
  next hargs =>
    rw [not_or, not_or, not_not] at hargs
    obtain ⟨hs0, ha0, hpow⟩ := hargs
    obtain ⟨k, hk, -, hk22⟩ := alignment_pow 22 ha0 hpow
      (by unfold kheapSize at halign; omega) (by decide)
    have hle : 2 ^ k ≤ 2 ^ 21 := Nat.pow_le_pow_right (by decide) (by omega)
    simp only [hk]
    have htotal : u32 (size + 2 ^ k + alignMetaBytes) = size + 2 ^ k + 8 := by
      unfold u32 alignMetaBytes kheapSize at *
      omega
    rw [htotal]
    have ht0 : 0 < size + 2 ^ k + 8 := by omega
    rcases kmalloc_spec hrep hsep ht0 (by unfold kheapSize at *; omega) with
      hr | ⟨t, raw, sz, hr, hp, hbase, ⟨pre, post, ht, hts, howners, rfl⟩, hsz⟩
    · left
      simp [hr]
    · right
      simp only [hr, hp, if_false]
      have hfits := ht.fits
      have hcov := ht.covers
      rw [span_append, span_cons] at hcov
      dsimp only at hcov
      obtain ⟨hne, hm, hlow, hhigh⟩ :=
        aligned_client t.mem (a := t.base + span hdrBytes pre) (n := sz)
        (by omega : k ≤ 32) (Nat.pos_of_ne_zero hs0) hsz (by omega)
      have hg : Gains blocks _ ⟨_, size⟩ _ sz :=
        ⟨pre, post, ht.reowned rfl hlow hhigh hm, separated_taken hts, howners, rfl⟩
      exact ⟨_, _, rfl, hne, hbase, hg.heapOk hperm⟩

/-- What `kmalloc_aligned` returns is a multiple of the alignment. -/
theorem kmallocAligned_aligned {k : ℕ} (hlo : 3 ≤ k) (hhi : k ≤ 32) {t : KHeap} {p : ℕ}
    (h : s.kmallocAligned size (2 ^ k) = some (t, p)) : p % 2 ^ k = 0 := by
  have hsmall : ¬ 2 ^ k < kheapAlign := by
    have : 2 ^ 3 ≤ 2 ^ k := Nat.pow_le_pow_right (by decide) hlo
    unfold kheapAlign
    omega
  unfold KHeap.kmallocAligned at h
  split at h
  next =>
    cases h
    exact Nat.zero_mod _
  next =>
    simp only at h
    split at h
    next => exact absurd h (by simp)
    next u raw _ =>
      split at h
      next =>
        cases h
        exact Nat.zero_mod _
      next =>
        rw [Option.some_inj, Prod.mk.injEq] at h
        rw [← h.2, alignUp_two_pow hhi]
        exact Nat.mul_mod_left _ _

end Clients

end Leg

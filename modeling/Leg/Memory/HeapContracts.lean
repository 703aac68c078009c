import Leg.Memory.HeapCalls

/-! How many bytes the heap's calls really give, in every state that calls lead to. The
sums of `kmalloc` and `kmalloc_aligned` wrap for requests near the top of the range, and
`krealloc` measures the block where the pointer may lie further up in it. -/
namespace Leg
open Tiling Memory Runs

section Sizes
variable {s : KHeap} {live : List Client} {size alignment : ℕ}

/-- A pointer that is not null has the bytes that were asked for. -/
def SizeKept (size : ℕ) (r : KHeap × ℕ) : Prop := r.2 ≠ 0 → InUsedBlock r.1 r.2 size

/-- And it is a multiple of the alignment. -/
def AlignKept (size alignment : ℕ) (r : KHeap × ℕ) : Prop :=
  r.2 ≠ 0 → InUsedBlock r.1 r.2 size ∧ alignment ∣ r.2

/-- The aligned requests served with as many bytes, or refused: also one that wraps into a small
request whose pointer wraps to null when it is aligned. -/
def AlignHonoured (s : KHeap) (size alignment : ℕ) : Prop :=
  AlignPlain s size alignment ∨
    ∀ a, FirstFit s (alignUp (alignedTotal size alignment) kheapAlign) a →
      u32 (a + hdrBytes + alignMetaBytes) = 0 ∨
        4294967296 ≤ u32 (a + hdrBytes + alignMetaBytes) + raisedAlign alignment - 1

theorem AllocatesLaid.sizeKept {r : Option (KHeap × ℕ)} (h : AllocatesLaid s live size r) :
    ∃ q, r = some q ∧ SizeKept size q := by
  rcases h with rfl | ⟨t, p, rfl, -, -, hlaid⟩
  · exact ⟨_, rfl, fun hne => absurd rfl hne⟩
  · exact ⟨_, rfl, fun _ => hlaid.inUsed (List.mem_cons_self ..)⟩

theorem not_inUsed {p : ℕ} (hcap : s.capacity = kheapSize) (hsize : kheapSize < size) :
    ¬ InUsedBlock s p size := by
  intro hin
  have := hin.le_capacity
  omega

/-- A size that wraps when it is rounded asks for no bytes at all, and gets the first free block
there is. -/
theorem kmalloc_wrapped (h : HeapLaid s live) (hsize : size < 4294967296)
    (hwrap : ¬ SizeHonoured s size) : ∃ t p, s.kmalloc size = some (t, p) ∧ p ≠ 0 ∧
      t.capacity = kheapSize := by
  unfold SizeHonoured at hwrap
  rw [not_or] at hwrap
  have h0 : size ≠ 0 := by omega
  have hround : alignUp size kheapAlign = 0 := by
    have : alignUp size kheapAlign = u32 (size + 2 ^ 3 - 1) / 2 ^ 3 * 2 ^ 3 :=
      alignUp_two_pow (k := 3) (by decide)
    unfold u32 at this
    omega
  obtain ⟨hcap, hpos, -⟩ := h.region
  rcases kmalloc_fit h.ok h0 with ⟨-, hno⟩ | ⟨t, a, hr, -, htc, -, hlow, -⟩
  · -- a free list that is not empty begins with a block that has room for nothing
    obtain ⟨blocks, hrep, -⟩ := h
    rcases nextFree_cases hdrBytes s.base 0 blocks
      with ⟨-, hnil⟩ | ⟨-, -, us, f, zs, rfl, hus, hf, -⟩
    · exact absurd (hrep.freeList.trans hnil) hwrap.2
    · refine absurd (firstFit_of_noRoom hrep hf (Nat.zero_le _) fun b hb hfree => ?_)
        (hround ▸ hno _)
      rw [hus b hb] at hfree
      exact absurd hfree (by decide)
  · exact ⟨t, _, hr, by unfold hdrBytes; omega, htc.trans hcap⟩

theorem kmalloc_kept_iff (h : HeapLaid s live) (hsize : size < 4294967296) :
    ∃ r, s.kmalloc size = some r ∧ (SizeKept size r ↔ SizeHonoured s size) := by
  by_cases hs : SizeHonoured s size
  · obtain ⟨r, hr, hkept⟩ := (kmalloc_honoured h hs).sizeKept
    exact ⟨r, hr, iff_of_true hkept hs⟩
  · obtain ⟨t, p, hr, hp, hcap⟩ := kmalloc_wrapped h hsize hs
    refine ⟨_, hr, iff_of_false (fun hkept => not_inUsed hcap ?_ (hkept hp)) hs⟩
    unfold SizeHonoured at hs
    unfold kheapSize
    omega

theorem kzalloc_kept_iff (h : HeapLaid s live) (hsize : size < 4294967296) :
    ∃ r, s.kzalloc size = some r ∧ (SizeKept size r ↔ SizeHonoured s size) := by
  by_cases hs : SizeHonoured s size
  · obtain ⟨r, hr, hkept⟩ := (kzalloc_honoured h hs).sizeKept
    exact ⟨r, hr, iff_of_true hkept hs⟩
  · obtain ⟨t, p, hr, hp, hcap⟩ := kmalloc_wrapped h hsize hs
    refine ⟨({ t with mem := t.mem.fill p size 0 }, p), by simp [KHeap.kzalloc, hr, hp],
      iff_of_false (fun hkept => not_inUsed ?_ ?_ (hkept hp)) hs⟩
    · exact hcap
    unfold SizeHonoured at hs
    unfold kheapSize
    omega

/-- What `kmalloc_aligned` returns is a multiple of every alignment it accepts. -/
theorem kmallocAligned_dvd (ha : alignment < 4294967296) {r : KHeap × ℕ}
    (hr : s.kmallocAligned size alignment = some r) : alignment ∣ r.2 := by
  unfold KHeap.kmallocAligned at hr
  split at hr
  next =>
    cases hr
    exact dvd_zero _
  next hargs =>
    rw [not_or, not_or, not_not] at hargs
    obtain ⟨k, hk, -, hk32⟩ := alignment_pow 32 hargs.2.1 hargs.2.2 ha (by decide)
    obtain ⟨j, rfl⟩ := Nat.ne_zero_and_sub_one_eq_zero_iff_isPowerOfTwo.mp hargs.2
    have hjk : 2 ^ j ∣ 2 ^ k := by
      refine Nat.pow_dvd_pow 2 ((Nat.pow_le_pow_iff_right (a := 2) (by decide)).mp ?_)
      rw [← hk]
      split <;> omega
    simp only [hk] at hr
    split at hr
    next => exact absurd hr (by simp)
    next u raw _ =>
      split at hr
      next =>
        cases hr
        exact dvd_zero _
      next =>
        rw [← Option.some.inj hr]
        refine hjk.trans ?_
        dsimp only
        rw [alignUp_two_pow (by omega)]
        exact Dvd.intro_left _ rfl

theorem alignUp_eq_zero_iff {x k : ℕ} (hk : k < 32) (hx : x < 4294967296) :
    alignUp x (2 ^ k) = 0 ↔ x = 0 ∨ 4294967296 ≤ x + 2 ^ k - 1 := by
  have hpos : 0 < 2 ^ k := Nat.two_pow_pos k
  have hle : 2 ^ k ≤ 2 ^ 31 := Nat.pow_le_pow_right (by decide) (by omega)
  rw [alignUp_two_pow (by omega), Nat.mul_eq_zero, Nat.div_eq_zero_iff]
  unfold u32
  omega

theorem kmallocAligned_served {t : KHeap} {raw : ℕ} (hs0 : size ≠ 0) (ha0 : alignment ≠ 0)
    (hpow : alignment &&& (alignment - 1) = 0)
    (hr : s.kmalloc (alignedTotal size alignment) = some (t, raw)) (hraw : raw ≠ 0) :
    ∃ m, s.kmallocAligned size alignment =
      some ({ t with mem := m }, alignUp (u32 (raw + alignMetaBytes)) (raisedAlign alignment)) := by
  unfold KHeap.kmallocAligned
  rw [if_neg (by simp [hs0, ha0, hpow])]
  dsimp only
  rw [show u32 (size + (if alignment < kheapAlign then kheapAlign else alignment) +
    alignMetaBytes) = alignedTotal size alignment from rfl, hr]
  dsimp only
  rw [if_neg hraw]
  exact ⟨_, rfl⟩

/-- A request whose sum wraps and still finds a block asks for more than there is in the region,
so it is served rightly only when its pointer wraps to null. -/
theorem kmallocAligned_wrapped (h : HeapLaid s live) (ha : alignment < 4294967296)
    (hwrap : ¬ AlignPlain s size alignment) :
    ∃ r, s.kmallocAligned size alignment = some r ∧
      (AlignKept size alignment r ↔ AlignHonoured s size alignment) := by
  have hplain := hwrap
  unfold AlignPlain at hwrap
  simp only [not_or, not_forall, not_not] at hwrap
  obtain ⟨hs0, ha0, hpow, hmax, htotal, a, hfit⟩ := hwrap
  obtain ⟨k, hk, -, hk32⟩ := alignment_pow 32 ha0 hpow ha (by decide)
  have hle : 2 ^ k ≤ 2 ^ 31 := Nat.pow_le_pow_right (by decide) (by omega)
  have hraise : raisedAlign alignment = 2 ^ k := hk
  rcases kmalloc_fit h.ok htotal with ⟨-, hno⟩ | ⟨t, b, hr, -, hcap, hfit', -⟩
  · exact absurd hfit (hno a)
  obtain rfl := hfit.unique hfit'
  obtain ⟨m, hr'⟩ := kmallocAligned_served hs0 ha0 hpow hr
    (show b + hdrBytes ≠ 0 by unfold hdrBytes; omega)
  refine ⟨_, hr', ?_⟩
  have hzero := alignUp_eq_zero_iff hk32 (u32_lt (b + hdrBytes + alignMetaBytes))
  have hlarge : kheapSize < size := by
    rw [hraise] at hmax
    unfold kheapSize
    omega
  unfold AlignKept AlignHonoured
  rw [hraise, or_iff_right hplain]
  constructor
  · intro hkept x hx
    obtain rfl := hfit.unique hx
    by_contra hne
    exact not_inUsed (s := { t with mem := m }) (hcap.trans h.region.1) hlarge
      (hkept (hzero.not.mpr hne)).1
  · exact fun hall hne => absurd (hzero.mpr (hall b hfit)) hne

/-- In every state that valid calls lead to without a wrapped one, and for all 32-bit sizes and
alignments, the three allocators return. Their pointer has the bytes that were asked for, and the
alignment, exactly when the sums do not wrap into a small request that finds a block. -/
theorem sizes_honoured_iff {heapVa : ℕ} (hpos : 0 < heapVa)
    (hfits : heapVa + kheapSize < 4294967296) {st : HeapState} (hst : HeapUnwrapped heapVa st)
    (hsize : size < 4294967296) (ha : alignment < 4294967296) :
    (∃ r, st.heap.kmalloc size = some r ∧ (SizeKept size r ↔ SizeHonoured st.heap size)) ∧
    (∃ r, st.heap.kzalloc size = some r ∧ (SizeKept size r ↔ SizeHonoured st.heap size)) ∧
    ∃ r, st.heap.kmallocAligned size alignment = some r ∧
      (AlignKept size alignment r ↔ AlignHonoured st.heap size alignment) := by
  obtain ⟨-, h⟩ := hst.laid hpos hfits
  refine ⟨kmalloc_kept_iff h hsize, kzalloc_kept_iff h hsize, ?_⟩
  by_cases hs : AlignPlain st.heap size alignment
  · obtain ⟨r, hr, hkept⟩ := (kmallocAligned_plain h ha hs).sizeKept
    exact ⟨r, hr, iff_of_true (fun hne => ⟨hkept hne, kmallocAligned_dvd ha hr⟩) (.inl hs)⟩
  · exact kmallocAligned_wrapped h ha hs

/-- On a fresh heap 64 bytes at a multiple of 16 are all there. -/
theorem sizes_honoured_fresh : (∃ r, freshHeap.heap.kmalloc 64 = some r ∧ SizeKept 64 r) ∧
    (∃ r, freshHeap.heap.kzalloc 64 = some r ∧ SizeKept 64 r) ∧
    ∃ r, freshHeap.heap.kmallocAligned 64 16 = some r ∧ AlignKept 64 16 r := by
  obtain ⟨⟨r, hr, hk⟩, ⟨u, hu, hz⟩, v, hv, ha⟩ := sizes_honoured_iff (by decide) (by decide)
    freshHeap_unwrapped (show 64 < 4294967296 by decide) (show 16 < 4294967296 by decide)
  exact ⟨⟨r, hr, hk.mpr (.inl (by decide))⟩, ⟨u, hu, hz.mpr (.inl (by decide))⟩, v, hv,
    ha.mpr (.inl (.inr (.inr (.inr (.inl (by decide))))))⟩

/-- On a fresh heap `kmalloc(0xFFFFFFFF)` and `kzalloc(0xFFFFFFFF)` give a block of no bytes, and
`kmalloc_aligned(0xFFFFFFF8, 8)` one of eight bytes. -/
theorem wrapped_size_served :
    (∃ r, freshHeap.heap.kmalloc 0xFFFFFFFF = some r ∧ ¬ SizeKept 0xFFFFFFFF r) ∧
    (∃ r, freshHeap.heap.kzalloc 0xFFFFFFFF = some r ∧ ¬ SizeKept 0xFFFFFFFF r) ∧
    ∃ r, freshHeap.heap.kmallocAligned 0xFFFFFFF8 8 = some r ∧ ¬ AlignKept 0xFFFFFFF8 8 r := by
  obtain ⟨-, h⟩ := freshHeap_unwrapped.laid (by decide) (by decide)
  have hno : ¬ SizeHonoured freshHeap.heap 0xFFFFFFFF := by
    rintro (h | h)
    · exact absurd h (by decide)
    · exact absurd h (by decide)
  obtain ⟨r, hr, hk⟩ := kmalloc_kept_iff h (show 0xFFFFFFFF < 4294967296 by decide)
  obtain ⟨u, hu, hz⟩ := kzalloc_kept_iff h (show 0xFFFFFFFF < 4294967296 by decide)
  refine ⟨⟨r, hr, hk.not.mpr hno⟩, ⟨u, hu, hz.not.mpr hno⟩, ?_⟩
  obtain ⟨v, hv, hb⟩ := (Option.any_eq_true _ _).mp
    (by decide +kernel : (freshHeap.heap.kmallocAligned 0xFFFFFFF8 8).any fun v =>
      decide (v.2 ≠ 0 ∧ v.1.capacity = kheapSize))
  obtain ⟨hp, hcap⟩ := of_decide_eq_true hb
  exact ⟨v, hv, fun hkept => not_inUsed hcap (by decide) (hkept hp).1⟩

end Sizes

/-- The contract of `krealloc` with result `r`: refused, the heap stays as it is; else `size`
bytes are there, the first ones those of before, and the blocks of the others are untouched. -/
structure ReallocKept (st : HeapState) (c : Client) (size : ℕ) (r : KHeap × ℕ) : Prop where
  refused : r.2 = 0 → r.1 = st.heap
  room : r.2 ≠ 0 → InUsedBlock r.1 r.2 size
  contents : r.2 ≠ 0 → ∀ k < min (st.heap.usable c.ptr) size,
    r.1.mem (r.2 + k) = st.heap.mem (c.ptr + k)
  others : ∀ d ∈ st.live, d ≠ c → ∀ x, Owns st.heap x d →
    Owns r.1 x d ∧ Agree st.heap.mem r.1.mem x (x + hdrBytes + st.heap.size x)

/-- The block is too small for the rounded size, so that the client moves or is refused, or what
lies behind the pointer is enough. -/
def ReallocHonoured (s : KHeap) (ptr size : ℕ) : Prop :=
  s.size (wsub (s.resolve ptr) hdrBytes) < alignUp size kheapAlign ∨ size ≤ s.usable ptr

instance (s : KHeap) (ptr size : ℕ) : Decidable (ReallocHonoured s ptr size) :=
  inferInstanceAs (Decidable (_ ∨ _))

section Realloc
variable {st : HeapState} {rest : List Client} {s : KHeap} {a n size : ℕ} {c d : Client}

/-- The block that a pointer lies in is the client's. -/
theorem HeapHolds.room_iff (h : HeapHolds s rest a n c) :
    InUsedBlock s c.ptr size ↔ size ≤ s.usable c.ptr := by
  have hheld := h.held
  have hlower := hheld.holds.lower
  have hupper := hheld.holds.upper
  have hbytes := hheld.holds.pos
  rw [hheld.usable.1]
  constructor
  · rintro ⟨hdrs, ht, x, hx, -, h1, h2⟩
    obtain ⟨pre, post, rfl, hrep, -⟩ := h
    obtain rfl := ht.unique hrep.tiles
    have ha : s.base + span hdrBytes pre ∈
        addrs hdrBytes s.base (pre ++ ⟨n, some c⟩ :: post) := mem_addrs.mpr ⟨pre, _, post, rfl, rfl⟩
    by_cases hxa : x = s.base + span hdrBytes pre
    · rw [hxa, hheld.sizeAt] at h2
      omega
    · have := hrep.blocks_apart ha hx (Ne.symm hxa)
      rw [hheld.sizeAt] at this
      omega
  · intro hle
    obtain ⟨pre, post, rfl, hrep, -⟩ := h
    refine ⟨_, hrep.tiles, _, mem_addrs.mpr ⟨pre, _, post, rfl, rfl⟩, hheld.magic, hlower, ?_⟩
    rw [hheld.sizeAt]
    omega

theorem krealloc_kept_iff (h : HeapLaid st.heap st.live) (hc : c ∈ st.live) (h0 : size ≠ 0)
    (hsize : size < 4294967296) : ∃ r, st.heap.krealloc c.ptr size = some r ∧
      (ReallocKept st c size r ↔ ReallocHonoured st.heap c.ptr size) := by
  obtain ⟨a, n, hh⟩ := h.holds hc
  have hheld := hh.held
  unfold ReallocHonoured
  rw [hheld.header, hheld.sizeAt]
  by_cases hfit : alignUp size kheapAlign ≤ n
  · refine ⟨_, krealloc_inPlace hheld h0 hfit, ?_⟩
    rw [or_iff_right (Nat.not_lt.mpr hfit), ← hh.room_iff]
    exact ⟨fun hk => hk.room hheld.ptr_ne_zero, fun hroom => ⟨fun _ => rfl, fun _ => hroom,
      fun _ _ _ => rfl, fun d _ _ x hx => ⟨hx, .refl _ _ _⟩⟩⟩
  rcases krealloc_move hh h0 hsize hfit with hr | ⟨t, p, hr, hp, hbase, hlaid, hbytes, hothers⟩
  · exact ⟨_, hr, iff_of_true ⟨fun _ => rfl, fun hne => absurd rfl hne, fun hne => absurd rfl hne,
      fun d _ _ x hx => ⟨hx, .refl _ _ _⟩⟩ (.inl (Nat.not_le.mp hfit))⟩
  refine ⟨_, hr, iff_of_true ⟨fun hne => absurd hne hp,
    fun _ => hlaid.inUsed (List.mem_cons_self ..),
    fun _ => hbytes, fun d hd hne x hx => ?_⟩ (.inl (Nat.not_le.mp hfit))⟩
  obtain ⟨y, k, hy⟩ := h.holds hd
  have hy' := hy.held
  obtain rfl : x = y := by
    have := hx.resolve
    rw [hy'.resolve] at this
    omega
  have hag := hothers d ((List.mem_erase_of_ne hne).mpr hd) x k hy'
  have hcap : t.capacity = st.heap.capacity := hlaid.region.1.trans h.region.1.symm
  exact ⟨(hy'.transport hag hbase hcap).owns, hy'.sizeAt.symm ▸ hag⟩

/-- In every state that valid calls lead to without a wrapped one, `krealloc` of a live pointer to
any size but 0 returns, and keeps its contract exactly when its size test is about what lies behind
the pointer: the block is too small, or the size fits there. -/
theorem krealloc_contract_iff {heapVa : ℕ} (hpos : 0 < heapVa)
    (hfits : heapVa + kheapSize < 4294967296) (hst : HeapUnwrapped heapVa st) (hc : c ∈ st.live)
    (h0 : size ≠ 0) (hsize : size < 4294967296) : ∃ r, st.heap.krealloc c.ptr size = some r ∧
      (ReallocKept st c size r ↔ ReallocHonoured st.heap c.ptr size) :=
  krealloc_kept_iff (hst.laid hpos hfits).2 hc h0 hsize

/-- The pointer to 16 bytes at a multiple of 64 has 36 bytes behind it in a block of 88: there it
is resized to 30 bytes, and it moves for 100. -/
theorem krealloc_contract_aligned : ∃ st, HeapUnwrapped 0xC0100000 st ∧ ∃ c ∈ st.live,
    (∃ r, st.heap.krealloc c.ptr 30 = some r ∧ ReallocKept st c 30 r) ∧
    ∃ r, st.heap.krealloc c.ptr 100 = some r ∧ ReallocKept st c 100 r := by
  obtain ⟨st, hst, c, hc, h30, h100⟩ := exists_unwrapped_heap [.op (.aligned 16 64)]
    (fun st => ∃ c ∈ st.live, ReallocHonoured st.heap c.ptr 30 ∧ ReallocHonoured st.heap c.ptr 100)
    (by decide +kernel)
  obtain ⟨r, hr, hk⟩ := krealloc_contract_iff (by decide) (by decide) hst hc
    (show 30 ≠ 0 by decide) (by decide)
  obtain ⟨u, hu, hk'⟩ := krealloc_contract_iff (by decide) (by decide) hst hc
    (show 100 ≠ 0 by decide) (by decide)
  exact ⟨st, hst, c, hc, ⟨r, hr, hk.mpr h30⟩, u, hu, hk'.mpr h100⟩

/-- That pointer is kept for 80 bytes, and for `0xFFFFFFFF`, which rounds to nothing. -/
theorem krealloc_contract_fails : ∃ st, HeapReachable 0xC0100000 st ∧ ∃ c ∈ st.live,
    (∃ r, st.heap.krealloc c.ptr 80 = some r ∧ ¬ ReallocKept st c 80 r) ∧
    ∃ r, st.heap.krealloc c.ptr 0xFFFFFFFF = some r ∧ ¬ ReallocKept st c 0xFFFFFFFF r := by
  obtain ⟨st, hst, c, hc, h80, hall⟩ := exists_unwrapped_heap [.op (.aligned 16 64)]
    (fun st => ∃ c ∈ st.live, ¬ ReallocHonoured st.heap c.ptr 80 ∧
      ¬ ReallocHonoured st.heap c.ptr 0xFFFFFFFF) (by decide +kernel)
  have h := (hst.laid (by decide) (by decide)).2
  obtain ⟨r, hr, hk⟩ := krealloc_kept_iff h hc (show 80 ≠ 0 by decide) (by decide)
  obtain ⟨u, hu, hk'⟩ := krealloc_kept_iff h hc (show 0xFFFFFFFF ≠ 0 by decide) (by decide)
  exact ⟨st, hst.reachable, c, hc, ⟨r, hr, hk.not.mpr h80⟩, u, hu, hk'.not.mpr hall⟩

end Realloc

end Leg

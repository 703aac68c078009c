import Leg.Memory.KernelHeapFrame
import Leg.Memory.KernelHeapRun

/-! The heap seen from one client: the block it holds, beside those of the others, and what each
call makes of that. All sizes are multiples of four, as a header has twelve bytes and requests
are rounded to eight. -/
namespace Leg
open Tiling Memory

/-- Separated blocks with sizes in words, the used ones held by these clients. -/
def HeapLaid (s : KHeap) (live : List Client) : Prop :=
  ∃ blocks, HeapRep s blocks ∧ Separated blocks ∧ (owners blocks).Perm live ∧
    ∀ b ∈ blocks, 4 ∣ b.size

/-- Beside the clients `rest`, `c` holds the block at `a`, with a body of `size` bytes. -/
def HeapHolds (s : KHeap) (rest : List Client) (a size : ℕ) (c : Client) : Prop :=
  ∃ pre post, a = s.base + span hdrBytes pre ∧ HeapRep s (pre ++ ⟨size, some c⟩ :: post) ∧
    Separated (pre ++ ⟨size, some c⟩ :: post) ∧ (owners pre ++ owners post).Perm rest ∧
    ∀ b ∈ pre ++ ⟨size, some c⟩ :: post, 4 ∣ b.size

section Views
variable {s : KHeap} {live rest : List Client} {a size : ℕ} {c d : Client}

theorem HeapLaid.ok (h : HeapLaid s live) : HeapOk s live := by
  obtain ⟨blocks, hrep, hsep, hperm, -⟩ := h
  exact ⟨blocks, hrep, hsep, hperm⟩

theorem HeapLaid.perm {live' : List Client} (h : HeapLaid s live) (hl : live.Perm live') :
    HeapLaid s live' := by
  obtain ⟨blocks, hrep, hsep, hperm, h4⟩ := h
  exact ⟨blocks, hrep, hsep, hperm.trans hl, h4⟩

theorem HeapHolds.laid (h : HeapHolds s rest a size c) : HeapLaid s (c :: rest) := by
  obtain ⟨pre, post, -, hrep, hsep, hperm, h4⟩ := h
  refine ⟨_, hrep, hsep, ?_, h4⟩
  have : owners (pre ++ ⟨size, some c⟩ :: post) = owners pre ++ c :: owners post := by
    simp [owners]
  rw [this]
  exact List.perm_middle.trans (.cons c hperm)

theorem HeapLaid.nodup (h : HeapLaid s live) : live.Nodup :=
  (List.pairwise_map.mp h.ok.ptrs_nodup).imp fun hne heq => hne (congrArg _ heq)

theorem HeapLaid.holds (h : HeapLaid s live) (hc : c ∈ live) :
    ∃ a size, HeapHolds s (live.erase c) a size c := by
  obtain ⟨blocks, hrep, hsep, hperm, h4⟩ := h
  obtain ⟨pre, size, post, rfl, hperm'⟩ := block_of_live hperm hc
  exact ⟨_, size, pre, post, rfl, hrep, hsep, hperm', h4⟩

/-- What the memory says of a client's block. -/
structure HeldBlock (s : KHeap) (a size : ℕ) (c : Client) : Prop where
  magic : s.magic a = kheapMagicUsed
  sizeAt : s.size a = size
  next : s.nextFree a = 0
  holds : HoldsClient s.mem a size c
  resolve : s.resolve c.ptr = a + hdrBytes
  low : s.base ≤ a
  high : a + hdrBytes + size ≤ s.base + kheapSize
  fits : s.base + kheapSize < 4294967296
  base_pos : 0 < s.base
  capacity : s.capacity = kheapSize

theorem HeapHolds.held (h : HeapHolds s rest a size c) : HeldBlock s a size c := by
  obtain ⟨pre, post, rfl, hrep, -⟩ := h
  obtain ⟨-, -, hmagic, hsize, hnext, hholds, -, hend, -⟩ := hrep.used_block
  have hfits := hrep.fits
  have hcap := hrep.capacity
  exact ⟨hmagic, hsize, hnext, hholds, resolve_holds hnext hholds (by omega) (by omega) (by omega),
    by omega,
    by omega, hfits, hrep.base_pos, hcap⟩

theorem HeldBlock.owns (h : HeldBlock s a size c) : Owns s a c :=
  ⟨h.magic, h.resolve, h.holds.lower, by rw [h.sizeAt]; exact h.holds.upper⟩

theorem HeldBlock.transport {t : KHeap} (h : HeldBlock s a size c)
    (hag : Agree s.mem t.mem a (a + hdrBytes + size)) (hbase : t.base = s.base)
    (hcap : t.capacity = s.capacity) : HeldBlock t a size c := by
  have hword (x : ℕ) (h1 : a ≤ x) (h2 : x + 4 ≤ a + hdrBytes) : t.mem.load x = s.mem.load x :=
    hag.load h1 (by omega)
  have hnext : t.nextFree a = 0 := (hword _ (by omega) (by unfold hdrBytes; omega)).trans h.next
  have hholds := h.holds.transport hag
  have hlow := h.low
  have hhigh := h.high
  have hfits := h.fits
  have hc := h.capacity
  rw [← hbase] at hlow hhigh hfits
  refine ⟨(hword _ (le_refl a) (by unfold hdrBytes; omega)).trans h.magic,
    (hword _ (by omega) (by unfold hdrBytes; omega)).trans h.sizeAt, hnext, hholds,
    resolve_holds hnext hholds hlow (by omega) (by omega), hlow, hhigh, hfits, ?_, hcap.trans hc⟩
  rw [hbase]
  exact h.base_pos

theorem HeldBlock.unique {x n : ℕ} (h : HeldBlock s a size c) (h' : HeldBlock s x n c) :
    x = a ∧ n = size := by
  have h1 := h.resolve
  rw [h'.resolve] at h1
  obtain rfl : x = a := by omega
  exact ⟨rfl, h'.sizeAt.symm.trans h.sizeAt⟩

theorem HeldBlock.ptr_ne_zero (h : HeldBlock s a size c) : c.ptr ≠ 0 := by
  have := h.holds.lower
  unfold hdrBytes at this
  omega

theorem HeldBlock.header (h : HeldBlock s a size c) : wsub (s.resolve c.ptr) hdrBytes = a := by
  have := h.high
  have := h.fits
  rw [h.resolve, wsub_of_le (by omega) (by omega), Nat.add_sub_cancel]

theorem HeldBlock.hdrValid (h : HeldBlock s a size c) : s.hdrValid a kheapMagicUsed := by
  have h1 := h.low
  have h2 := h.high
  have h3 := h.fits
  refine ⟨?_, h.magic⟩
  rw [h.capacity, u32_of_lt h3, u32_of_lt (by omega)]
  omega

theorem HeapHolds.reowned (h : HeapHolds s rest a size c) {m : Memory}
    (hlow : ∀ lo hi, hi ≤ a + hdrBytes → Agree s.mem m lo hi)
    (hhigh : ∀ lo hi, a + hdrBytes + size ≤ lo → Agree s.mem m lo hi)
    (hd : HoldsClient m a size d) : HeapHolds { s with mem := m } rest a size d := by
  obtain ⟨pre, post, rfl, hrep, hsep, hperm, h4⟩ := h
  refine ⟨pre, post, rfl, hrep.reowned rfl hlow hhigh hd, separated_taken hsep, hperm,
    fun b hb => ?_⟩
  rcases List.mem_append.mp hb with hb | hb
  · exact h4 b (List.mem_append_left _ hb)
  · rcases List.mem_cons.mp hb with rfl | hb
    · exact h4 ⟨size, some c⟩ (by simp)
    · exact h4 b (by simp [hb])

theorem HeapRep.blocks_apart {blocks : List (Block Client)} (h : HeapRep s blocks) {x y : ℕ}
    (hx : x ∈ addrs hdrBytes s.base blocks) (hy : y ∈ addrs hdrBytes s.base blocks) (hne : x ≠ y) :
    x + hdrBytes + s.size x ≤ y ∨ y + hdrBytes + s.size y ≤ x := by
  obtain ⟨us, b, vs, rfl, rfl⟩ := mem_addrs.mp hx
  obtain ⟨us', b', vs', heq, rfl⟩ := mem_addrs.mp hy
  have hb : s.size (s.base + span hdrBytes us) = b.size := (laid_append.mp h.laid).2.1.1
  rw [heq] at h
  have hb' : s.size (s.base + span hdrBytes us') = b'.size := (laid_append.mp h.laid).2.1.1
  rw [hb, hb']
  rcases split_cases heq with ⟨rfl, -⟩ | ⟨zs, rfl⟩ | ⟨zs, rfl⟩
  · exact absurd rfl hne
  · left
    rw [span_append, span_cons]
    omega
  · right
    rw [span_append, span_cons]
    omega

theorem other_block {pre post : List (Block Client)} (a size : ℕ) (c : Client)
    (hd : d ∈ owners pre ++ owners post) : ∃ us n vs,
      pre ++ ⟨size, some c⟩ :: post = us ++ ⟨n, some d⟩ :: vs ∧
        a + span hdrBytes us ≠ a + span hdrBytes pre := by
  obtain ⟨b, hb, hbd⟩ := List.mem_filterMap.mp (show d ∈ owners (pre ++ post) by simpa using hd)
  obtain ⟨n, owner⟩ := b
  cases hbd
  rcases List.mem_append.mp hb with hb | hb
  · obtain ⟨us, vs, rfl⟩ := List.append_of_mem hb
    refine ⟨us, n, vs ++ ⟨size, some c⟩ :: post, by simp, ?_⟩
    rw [span_append, span_cons]
    unfold hdrBytes
    omega
  · obtain ⟨us, vs, rfl⟩ := List.append_of_mem hb
    refine ⟨pre ++ ⟨size, some c⟩ :: us, n, vs, by simp, ?_⟩
    rw [span_append, span_cons]
    unfold hdrBytes
    omega

theorem HeapRep.owns_addr {pre post : List (Block Client)} {x : ℕ}
    (h : HeapRep s (pre ++ ⟨size, some c⟩ :: post)) (hx : Owns s x c) :
    x = s.base + span hdrBytes pre := by
  obtain ⟨-, -, -, -, hnext, hholds, -, hend, -⟩ := h.used_block
  have hcap := h.capacity
  have hfits := h.fits
  have hres := resolve_holds hnext hholds (by omega) (by omega) (by omega)
  rw [hx.resolve] at hres
  omega

theorem HeapHolds.apart (h : HeapHolds s rest a size c) (hd : d ∈ rest) {x : ℕ} (hx : Owns s x d) :
    a + hdrBytes + size ≤ x ∨ x + hdrBytes + s.size x ≤ a := by
  have hsize := h.held.sizeAt
  obtain ⟨pre, post, rfl, hrep, -, hperm, -⟩ := h
  obtain ⟨us, n, vs, heq, hne⟩ := other_block s.base size c (hperm.mem_iff.mpr hd)
  obtain rfl : x = s.base + span hdrBytes us := (heq ▸ hrep).owns_addr hx
  have ha : s.base + span hdrBytes pre ∈
      addrs hdrBytes s.base (pre ++ ⟨size, some c⟩ :: post) :=
        mem_addrs.mpr ⟨pre, _, post, rfl, rfl⟩
  have hat : s.base + span hdrBytes us ∈
      addrs hdrBytes s.base (pre ++ ⟨size, some c⟩ :: post) := mem_addrs.mpr ⟨us, _, vs, heq, rfl⟩
  have := hrep.blocks_apart ha hat hne.symm
  rwa [hsize] at this

end Views

section Calls
variable {s t : KHeap} {live rest : List Client} {a n size alignment p : ℕ} {c d : Client}

theorem cut_sizes {b : Block Client} (hn : 4 ∣ n) (hb : 4 ∣ b.size) :
    ∀ x ∈ cut n c b, 4 ∣ x.size := by
  unfold cut
  split
  next hcut =>
    intro x hx
    rcases List.mem_cons.mp hx with rfl | hx
    · exact hn
    · rw [List.mem_singleton.mp hx]
      dsimp only
      omega
  next =>
    intro x hx
    rw [List.mem_singleton.mp hx]
    exact hb

theorem alignUp_words (size : ℕ) : 4 ∣ alignUp size kheapAlign := by
  have : alignUp size kheapAlign = u32 (size + 2 ^ 3 - 1) / 2 ^ 3 * 2 ^ 3 :=
    alignUp_two_pow (k := 3) (by decide)
  omega

/-- A request that does not wrap is refused, or its client holds the block at the pointer. -/
theorem kmalloc_holds (h : HeapLaid s live) (h0 : 0 < size) (hmax : size + 7 < 4294967296) :
    s.kmalloc size = some (s, 0) ∨ ∃ t a n, s.kmalloc size = some (t, a + hdrBytes) ∧
      t.base = s.base ∧ HeapHolds t live a n ⟨a + hdrBytes, size⟩ ∧ size ≤ n := by
  obtain ⟨blocks, hrep, hsep, hperm, h4⟩ := h
  rcases kmalloc_firstFit hrep (Nat.ne_of_gt h0) with
    ⟨hr, -⟩ | ⟨pre, b, post, prev, rfl, hb, hn, -, hp, hr⟩
  · exact .inl hr
  right
  have hround : size ≤ alignUp size kheapAlign := by
    rw [alignUp_eight hmax]
    omega
  obtain ⟨hptr, hrep'⟩ := take_cut hrep hb hp hn h0 hround
  have hbase := KHeap.take_base (s := s) (n := alignUp size kheapAlign) prev
    (s.base + span hdrBytes pre)
  obtain ⟨k, rest, hcut, hk, hown, hsep', -⟩ := cut_cons (n := alignUp size kheapAlign)
    (c := ⟨s.base + span hdrBytes pre + hdrBytes, size⟩) hb hn
  have hsizes := cut_sizes (c := ⟨s.base + span hdrBytes pre + hdrBytes, size⟩)
    (alignUp_words size) (h4 b (by simp))
  rw [show s.base + span hdrBytes pre + 12 = s.base + span hdrBytes pre + hdrBytes from rfl]
    at hptr hrep'
  rw [hcut] at hrep' hsizes
  generalize s.take prev (s.base + span hdrBytes pre) (alignUp size kheapAlign) = r at *
  refine ⟨r.1, s.base + span hdrBytes pre, k, by rw [hr, ← hptr], hbase,
    ⟨pre, rest ++ post, by rw [hbase], hrep', hsep' _ _ hsep, ?_, fun x hx => ?_⟩, by omega⟩
  · rw [owners_append, hown, List.nil_append]
    have : owners (pre ++ b :: post) = owners pre ++ owners post := by
      simp [owners, Option.isNone_iff_eq_none.mp hb]
    rwa [← this]
  · rcases List.mem_append.mp hx with hx | hx
    · exact h4 x (List.mem_append_left _ hx)
    · rw [← List.cons_append, List.mem_append] at hx
      exact hx.elim (hsizes x) fun hx => h4 x (by simp [hx])

/-- The heap after an allocation: unchanged with a null pointer, or laid out with one more
client. -/
def AllocatesLaid (s : KHeap) (live : List Client) (size : ℕ) (r : Option (KHeap × ℕ)) : Prop :=
  r = some (s, 0) ∨
    ∃ t p, r = some (t, p) ∧ p ≠ 0 ∧ t.base = s.base ∧ HeapLaid t (⟨p, size⟩ :: live)

theorem kmalloc_laid (h : HeapLaid s live) (hmax : size + 7 < 4294967296) :
    AllocatesLaid s live size (s.kmalloc size) := by
  rcases Nat.eq_zero_or_pos size with rfl | h0
  · exact .inl rfl
  · refine (kmalloc_holds h h0 hmax).imp id ?_
    rintro ⟨t, a, n, hr, hbase, hh, -⟩
    exact ⟨t, _, hr, hh.held.ptr_ne_zero, hbase, hh.laid⟩

theorem kzalloc_laid (h : HeapLaid s live) (hmax : size + 7 < 4294967296) :
    AllocatesLaid s live size (s.kzalloc size) := by
  unfold KHeap.kzalloc
  rcases Nat.eq_zero_or_pos size with rfl | h0
  · exact .inl rfl
  rcases kmalloc_holds h h0 hmax with hr | ⟨t, a, n, hr, hbase, hh, hn⟩
  · left
    simp [hr]
  · right
    have hp := hh.held.ptr_ne_zero
    dsimp only at hp
    simp only [hr, hp, ne_eq, not_false_eq_true, if_true]
    -- clearing the requested bytes is a write inside the new block's body
    have hz := hh.reowned (m := t.mem.fill (a + hdrBytes) size 0) (d := ⟨a + hdrBytes, size⟩)
      (fun lo hi hhi => fill_agree _ _ _ _ (.inl hhi))
      (fun lo hi hlo => fill_agree _ _ _ _ (.inr (by omega)))
      ⟨le_refl _, by dsimp only; omega, h0, .inl rfl⟩
    exact ⟨_, _, rfl, hp, hbase, hz.laid⟩

/-- An aligned request whose sizes do not wrap. -/
theorem kmallocAligned_laid (h : HeapLaid s live) (halign : alignment < 4294967296)
    (hmax : size + (if alignment < kheapAlign then kheapAlign else alignment) + 15 < 4294967296) :
    AllocatesLaid s live size (s.kmallocAligned size alignment) := by
  unfold KHeap.kmallocAligned
  split
  next => exact .inl rfl
  next hargs =>
    rw [not_or, not_or, not_not] at hargs
    obtain ⟨hs0, ha0, hpow⟩ := hargs
    obtain ⟨k, hk, -, hk32⟩ := alignment_pow 32 ha0 hpow halign (by decide)
    rw [hk] at hmax
    simp only [hk]
    have htotal : u32 (size + 2 ^ k + alignMetaBytes) = size + 2 ^ k + 8 := by
      unfold u32 alignMetaBytes
      omega
    rw [htotal]
    rcases kmalloc_holds h (by omega : 0 < size + 2 ^ k + 8) (by omega) with
      hr | ⟨t, a, n, hr, hbase, hh, hn⟩
    · left
      simp [hr]
    · right
      have hp := hh.held.ptr_ne_zero
      have h1 := hh.held.high
      have h2 := hh.held.fits
      dsimp only at hp
      simp only [hr, hp, if_false]
      obtain ⟨hne, hm, hlow, hhigh⟩ := aligned_client t.mem (by omega : k ≤ 32)
        (Nat.pos_of_ne_zero hs0) hn (by omega : a + hdrBytes + n < 4294967296)
      exact ⟨_, _, rfl, hne, hbase, (hh.reowned hlow hhigh hm).laid⟩

theorem kfree_laid (h : HeapHolds s rest a n c) :
    ∃ t, s.kfree c.ptr = some t ∧ t.base = s.base ∧ HeapLaid t rest := by
  obtain ⟨pre, post, -, hrep, hsep, hperm, h4⟩ := h
  obtain ⟨t, blocks, heq, hbase, hrep', hsep', hown, hmerge⟩ := kfree_blocks hrep hsep
  exact ⟨t, heq, hbase, blocks, hrep', hsep', hown ▸ hperm, hmerge.sizes 4 (by decide) h4⟩

theorem kmalloc_keeps (h : HeapHolds s rest a n c) (hr : s.kmalloc size = some (t, p)) :
    Agree s.mem t.mem a (a + hdrBytes + n) := by
  obtain ⟨pre, post, rfl, hrep, -⟩ := h
  obtain ⟨-, -, hused, hsize, -⟩ := hrep.used_block
  have ha : s.base + span hdrBytes pre ∈
      addrs hdrBytes s.base (pre ++ ⟨n, some c⟩ :: post) := mem_addrs.mpr ⟨pre, _, post, rfl, rfl⟩
  refine kmalloc_frame hrep hr fun x hx hmagic => ?_
  have hne : s.base + span hdrBytes pre ≠ x := by
    rintro rfl
    exact absurd (hmagic.symm.trans hused) (by decide)
  have := hrep.blocks_apart ha hx hne
  rwa [hsize] at this

theorem kfree_keeps (h : HeapHolds s rest a n c) (hd : d ∈ rest) (hr : s.kfree d.ptr = some t) :
    Agree s.mem t.mem a (a + hdrBytes + n) := by
  obtain ⟨pre, post, rfl, hrep, -, hperm, -⟩ := h
  obtain ⟨-, -, hused, hsize, -⟩ := hrep.used_block
  have ha : s.base + span hdrBytes pre ∈
      addrs hdrBytes s.base (pre ++ ⟨n, some c⟩ :: post) := mem_addrs.mpr ⟨pre, _, post, rfl, rfl⟩
  obtain ⟨us, k, vs, heq, hne⟩ := other_block s.base n c (hperm.mem_iff.mpr hd)
  rw [heq] at hrep ha
  refine kfree_frame hrep hr fun x hx hcase => ?_
  have hxne : s.base + span hdrBytes pre ≠ x := by
    rintro rfl
    exact hcase.elim hne.symm fun hmagic => absurd (hmagic.symm.trans hused) (by decide)
  have := hrep.blocks_apart ha hx hxne
  rw [hsize] at this
  exact this.imp id (by omega)

end Calls

end Leg

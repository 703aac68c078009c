import Leg.Memory.KernelHeapFree

/-! What the heap's calls leave alone: they write headers, and the bodies of free blocks, so every
byte of a live allocation keeps its value. -/
namespace Leg
open Tiling Memory

/-- The bytes from `lo` to `hi` lie outside the header at `x`. -/
def OffHeader (lo hi x : ℕ) : Prop := hi ≤ x ∨ x + hdrBytes ≤ lo

/-- The bytes from `lo` to `hi` lie outside the link of the header at `x`. -/
def OffLink (lo hi x : ℕ) : Prop := hi ≤ x + 8 ∨ x + hdrBytes ≤ lo

section Writes
variable {s : KHeap} {lo hi a prev : ℕ}

theorem OffHeader.link (h : OffHeader lo hi a) : OffLink lo hi a := h.imp_left fun h => by omega

theorem relink_agree {n : ℕ} (h : prev = 0 ∨ OffLink lo hi prev) :
    Agree s.mem (s.relink prev n).mem lo hi := by
  unfold KHeap.relink
  split
  next h0 =>
    have hoff := h.resolve_left h0
    unfold OffLink hdrBytes at hoff
    exact store_agree _ _ _ (by omega)
  next => exact .refl _ _ _

theorem absorb_agree {next : ℕ} (ha : OffHeader lo hi a) (hn : OffHeader lo hi next) :
    Agree s.mem (s.absorb a next).mem lo hi := by
  unfold OffHeader hdrBytes at ha hn
  simp only [KHeap.absorb, KHeap.setSize, KHeap.setNextFree, KHeap.setMagic]
  exact (store_agree _ _ _ (by omega)).trans
    ((store_agree _ _ _ (by omega)).trans (store_agree _ _ _ (by omega)))

theorem coalesceNext_agree (ha : OffHeader lo hi a)
    (hn : s.nextFree a = 0 ∨ OffHeader lo hi (s.nextFree a)) :
    Agree s.mem (s.coalesceNext a).mem lo hi := by
  simp only [KHeap.coalesceNext]
  split
  next h => exact absorb_agree ha (hn.resolve_left h.1)
  next => exact .refl _ _ _

theorem coalescePrev_agree (ha : OffHeader lo hi a) (hp : prev = 0 ∨ OffHeader lo hi prev) :
    Agree s.mem (s.coalescePrev prev a).mem lo hi := by
  unfold KHeap.coalescePrev
  split
  next h => exact absorb_agree (hp.resolve_left h.1) ha
  next => exact .refl _ _ _

theorem unlinked_agree {size nx : ℕ} (ha : OffHeader lo hi a)
    (hp : prev = 0 ∨ OffHeader lo hi prev) :
    Agree s.mem (s.unlinked prev a size nx).mem lo hi := by
  refine Agree.trans ?_ (relink_agree (hp.imp_right OffHeader.link))
  unfold OffHeader hdrBytes at ha
  exact (store_agree _ _ _ (by omega)).trans (store_agree _ _ _ (by omega))

theorem markUsed_agree (ha : OffHeader lo hi a) : Agree s.mem (s.markUsed a).mem lo hi := by
  obtain ⟨-, -, -, -, hlow, hhigh⟩ := markUsed_loads s a
  exact ha.elim (hlow lo hi) (hhigh lo hi)

/-- A block that is taken may be cut; its tail's header lies inside it. -/
theorem take_agree {n size : ℕ} (lo hi prev : ℕ) (hsize : s.size a = size)
    (hsmall : size ≤ kheapSize)
    (hfits : a + hdrBytes + size < 4294967296) (ha : hi ≤ a ∨ a + hdrBytes + size ≤ lo)
    (hp : prev = 0 ∨ OffLink lo hi prev) (hn : n ≤ size) :
    Agree s.mem (s.take prev a n).1.mem lo hi := by
  have hoff : OffHeader lo hi a := ha.imp id fun h => by omega
  unfold hdrBytes at hfits ha
  simp only [KHeap.take]
  refine Agree.trans ?_ (markUsed_agree hoff)
  split
  next hcut =>
    refine Agree.trans ?_ (relink_agree hp)
    rw [hsize] at hcut
    unfold hdrBytes kheapMinSplit at hcut
    unfold kheapSize at hsmall
    rw [u32_of_lt (by omega)] at hcut
    have hat : u32 (a + hdrBytes + n) = a + 12 + n := u32_of_lt (by unfold hdrBytes; omega)
    rw [hat]
    obtain ⟨-, -, -, -, hlow, hhigh⟩ :=
      splitTail_loads (s := s) (n := n) hsize rfl (by omega) (by omega)
    exact ha.elim (fun h => hlow lo hi (by omega)) fun h => hhigh lo hi (by omega)
  next => exact relink_agree hp

end Writes

section Blocks
variable {s : KHeap} {blocks pre post : List (Block Client)} {b : Block Client} {c : Client}

theorem split_cases {α : Type*} {xs ys us vs : List α} {x y : α}
    (h : xs ++ x :: ys = us ++ y :: vs) :
    (xs = us ∧ x = y) ∨ (∃ zs, us = xs ++ x :: zs) ∨ ∃ zs, xs = us ++ y :: zs := by
  rcases List.append_eq_append_iff.mp h with ⟨zs, rfl, hz⟩ | ⟨zs, rfl, hz⟩
  · cases zs with
    | nil => exact .inl ⟨by simp, (List.cons.inj hz).1⟩
    | cons z zs =>
      obtain ⟨rfl, -⟩ := List.cons.inj hz
      exact .inr (.inl ⟨zs, rfl⟩)
  · cases zs with
    | nil => exact .inl ⟨by simp, (List.cons.inj hz).1.symm⟩
    | cons z zs =>
      obtain ⟨rfl, -⟩ := List.cons.inj hz
      exact .inr (.inr ⟨zs, rfl⟩)

/-- A client's bytes lie in the body of its own block, so outside the bodies of all others. -/
theorem client_apart (h : HeapRep s (pre ++ b :: post)) (hc : c ∈ owners (pre ++ b :: post)) :
    (b.owner = some c ∧ s.base + span hdrBytes pre + hdrBytes ≤ c.ptr) ∨
      c.ptr + c.bytes ≤ s.base + span hdrBytes pre ∨
      s.base + span hdrBytes pre + hdrBytes + b.size ≤ c.ptr := by
  obtain ⟨k, hk, hkc⟩ := List.mem_filterMap.mp hc
  obtain ⟨xs, ys, heq⟩ := List.append_of_mem hk
  obtain ⟨size, owner⟩ := k
  cases hkc
  have hrep := h
  rw [heq] at hrep
  obtain ⟨-, -, -, -, -, hholds, -, -, -⟩ := hrep.used_block
  have hlower := hholds.lower
  have hupper := hholds.upper
  rcases split_cases heq.symm with ⟨rfl, rfl⟩ | ⟨zs, rfl⟩ | ⟨zs, rfl⟩
  · exact .inl ⟨rfl, hlower⟩
  · right
    left
    rw [span_append, span_cons]
    dsimp only
    omega
  · right
    right
    rw [span_append, span_cons] at hlower
    omega

theorem client_offHeader (h : HeapRep s blocks) (hc : c ∈ owners blocks) {x : ℕ}
    (hx : x ∈ addrs hdrBytes s.base blocks) : OffHeader c.ptr (c.ptr + c.bytes) x := by
  obtain ⟨pre, b, post, rfl, rfl⟩ := mem_addrs.mp hx
  rcases client_apart h hc with ⟨-, hlow⟩ | hlow | hhigh
  · exact .inr hlow
  · exact .inl hlow
  · exact .inr (by omega)

end Blocks

section Calls
variable {s t : KHeap} {live : List Client} {c d : Client}

theorem kmalloc_cases {blocks : List (Block Client)} (h : HeapRep s blocks) (size : ℕ) :
    s.kmalloc size = some (s, 0) ∨ ∃ pre b post prev, blocks = pre ++ b :: post ∧ b.owner.isNone ∧
      alignUp size kheapAlign ≤ b.size ∧ LastFree hdrBytes s.base pre prev ∧
      s.kmalloc size = some
        (s.take prev (s.base + span hdrBytes pre) (alignUp size kheapAlign)) := by
  by_cases h0 : size = 0
  · exact .inl (by rw [KHeap.kmalloc, if_pos h0])
  rcases kmalloc_firstFit h h0 with ⟨hr, -⟩ | ⟨pre, b, post, prev, heq, hb, hn, -, hp, hr⟩
  · exact .inl hr
  · exact .inr ⟨pre, b, post, prev, heq, hb, hn, hp, hr⟩

theorem kmalloc_returns (h : HeapOk s live) (size : ℕ) :
    ∃ r, s.kmalloc size = some r ∧ (r.2 = 0 → r = (s, 0)) := by
  obtain ⟨blocks, hrep, -⟩ := h
  rcases kmalloc_cases hrep size with hr | ⟨pre, b, post, prev, rfl, -, -, -, hr⟩
  · exact ⟨_, hr, fun _ => rfl⟩
  · refine ⟨_, hr, fun h0 => absurd h0 ?_⟩
    have hcov := hrep.covers
    have hfits := hrep.fits
    rw [span_append, span_cons] at hcov
    simp only [KHeap.take]
    rw [u32_of_lt (by omega)]
    unfold hdrBytes
    omega

theorem HeapRep.free_header {pre post : List (Block Client)} {b : Block Client}
    (h : HeapRep s (pre ++ b :: post)) (hb : b.owner.isNone) :
    s.base + span hdrBytes pre ∈ addrs hdrBytes s.base (pre ++ b :: post) ∧
      s.magic (s.base + span hdrBytes pre) = kheapMagicFree ∧
      s.size (s.base + span hdrBytes pre) = b.size := by
  obtain ⟨-, -, hmagic, hsize, -⟩ := h.free_block hb
  exact ⟨mem_addrs.mpr ⟨pre, b, post, rfl, rfl⟩, hmagic, hsize⟩

theorem HeapRep.lastFree_header {pre ys : List (Block Client)} {prev : ℕ}
    (h : HeapRep s (pre ++ ys)) (hp : LastFree hdrBytes s.base pre prev) :
    prev = 0 ∨ prev ∈ addrs hdrBytes s.base (pre ++ ys) ∧ s.magic prev = kheapMagicFree := by
  rcases hp with ⟨-, h0⟩ | ⟨xs, f, zs, rfl, hf, -, rfl⟩
  · exact .inl h0
  · have heq : xs ++ f :: zs ++ ys = xs ++ f :: (zs ++ ys) := by simp
    rw [heq] at h ⊢
    obtain ⟨h1, h2, -⟩ := h.free_header hf
    exact .inr ⟨h1, h2⟩

theorem kmalloc_frame {blocks : List (Block Client)} {size p lo hi : ℕ} (h : HeapRep s blocks)
    (hr : s.kmalloc size = some (t, p)) (hoff : ∀ x ∈ addrs hdrBytes s.base blocks,
      s.magic x = kheapMagicFree → hi ≤ x ∨ x + hdrBytes + s.size x ≤ lo) :
    Agree s.mem t.mem lo hi := by
  rcases kmalloc_cases h size with hnone | ⟨pre, b, post, prev, rfl, hb, hn, hp, hsome⟩
  · rw [hnone] at hr
    cases hr
    exact .refl _ _ _
  · rw [hsome, Option.some.injEq] at hr
    obtain ⟨-, -, -, -, -, -, hend⟩ := h.free_block hb
    obtain ⟨hmem, hmagic, hsize⟩ := h.free_header hb
    have hfits := h.fits
    have hout := hoff _ hmem hmagic
    rw [hsize] at hout
    have htake := take_agree lo hi prev hsize (by omega) (by omega) hout
      ((h.lastFree_header hp).imp id fun hx => (hoff _ hx.1 hx.2).imp (by omega) (by omega)) hn
    rw [hr] at htake
    exact htake

/-- `kfree` changes no byte outside the freed header and the free ones. -/
theorem kfree_frame {pre post : List (Block Client)} {size lo hi : ℕ}
    (h : HeapRep s (pre ++ ⟨size, some c⟩ :: post)) (hr : s.kfree c.ptr = some t)
    (hoff : ∀ x ∈ addrs hdrBytes s.base (pre ++ ⟨size, some c⟩ :: post),
      x = s.base + span hdrBytes pre ∨ s.magic x = kheapMagicFree → OffHeader lo hi x) :
    Agree s.mem t.mem lo hi := by
  obtain ⟨prev, hlast, heq⟩ := kfree_eq h
  dsimp only at heq
  rw [hr, Option.some.injEq] at heq
  subst heq
  have ha : OffHeader lo hi (s.base + span hdrBytes pre) :=
    hoff _ (mem_addrs.mpr ⟨pre, _, post, rfl, rfl⟩) (.inl rfl)
  have hp : prev = 0 ∨ OffHeader lo hi prev :=
    (h.lastFree_header hlast).imp id fun hx => hoff _ hx.1 (.inr hx.2)
  have hnext : (s.unlinked prev (s.base + span hdrBytes pre) size (nextFree hdrBytes
      (s.base + span hdrBytes pre + hdrBytes + size) post 0)).nextFree
        (s.base + span hdrBytes pre) =
        nextFree hdrBytes (s.base + span hdrBytes pre + hdrBytes + size) post 0 := by
    obtain ⟨-, -, -, -, hn, -⟩ := (h.freed hlast).free_block rfl
    rw [KHeap.relink_base] at hn
    exact hn
  refine (unlinked_agree ha hp).trans ((coalesceNext_agree ha ?_).trans (coalescePrev_agree ha hp))
  rw [hnext]
  rcases nextFree_cases hdrBytes (s.base + span hdrBytes pre + hdrBytes + size) 0 post with
    ⟨-, h0⟩ | ⟨-, -, us, f, zs, rfl, -, hf, heq⟩
  · exact .inl h0
  · right
    have hsplit : pre ++ ⟨size, some c⟩ :: (us ++ f :: zs) =
        (pre ++ ⟨size, some c⟩ :: us) ++ f :: zs := by simp
    rw [hsplit] at h hoff
    obtain ⟨h1, h2, -⟩ := h.free_header hf
    have hat : s.base + span hdrBytes (pre ++ ⟨size, some c⟩ :: us) =
        s.base + span hdrBytes pre + hdrBytes + size + span hdrBytes us := by
      rw [span_append, span_cons]
      dsimp only
      omega
    rw [heq, ← hat]
    exact hoff _ h1 (.inr h2)

theorem kmalloc_agree (h : HeapOk s live) {size p : ℕ} (hr : s.kmalloc size = some (t, p))
    (hc : c ∈ live) : Agree s.mem t.mem c.ptr (c.ptr + c.bytes) := by
  obtain ⟨blocks, hrep, -, hperm⟩ := h
  refine kmalloc_frame hrep hr fun x hx hmagic => ?_
  obtain ⟨pre, b, post, rfl, rfl⟩ := mem_addrs.mp hx
  have hown : c ∈ owners (pre ++ b :: post) := hperm.mem_iff.mpr hc
  have hhead := (laid_append.mp hrep.laid).2.1
  rw [KHeap.size, hhead.1]
  refine (client_apart hrep hown).resolve_left fun hself => ?_
  -- a client's block is marked used
  rw [Header, hself.1] at hhead
  exact absurd (hmagic.symm.trans hhead.2.1) (by decide)

theorem kfree_agree (h : HeapOk s live) (hd : d ∈ live) (hr : s.kfree d.ptr = some t)
    (hc : c ∈ live) : Agree s.mem t.mem c.ptr (c.ptr + c.bytes) := by
  obtain ⟨blocks, hrep, -, hperm⟩ := h
  have hown : c ∈ owners blocks := hperm.mem_iff.mpr hc
  obtain ⟨pre, size, post, rfl, -⟩ := block_of_live hperm hd
  exact kfree_frame hrep hr fun x hx _ => client_offHeader hrep hown hx

end Calls

end Leg

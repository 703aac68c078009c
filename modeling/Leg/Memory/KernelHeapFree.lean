import Leg.Memory.KernelHeapAlloc

/-! What `kfree` does to the blocks: it finds the block of a live pointer, frees it in place
and merges it with the free blocks it touches. -/
namespace Leg
open Tiling Memory

section Resolve
variable {s : KHeap} {pre post : List (Block Client)} {size : ℕ} {c : Client}

theorem HeapRep.used_block (h : HeapRep s (pre ++ ⟨size, some c⟩ :: post)) :
    let a := s.base + span hdrBytes pre
    Laid s.mem s.base pre (nextFree hdrBytes (a + hdrBytes + size) post 0) ∧
      s.freeList = nextFree hdrBytes s.base pre (nextFree hdrBytes (a + hdrBytes + size) post 0) ∧
      s.magic a = kheapMagicUsed ∧ s.size a = size ∧ s.nextFree a = 0 ∧
      HoldsClient s.mem a size c ∧ Laid s.mem (a + hdrBytes + size) post 0 ∧
      a + hdrBytes + size + span hdrBytes post = s.base + kheapSize ∧
      s.used = usedSum pre + size + usedSum post := by
  have hl := laid_append.mp h.laid
  have hf := h.freeList
  have hc := h.covers
  have hu := h.used
  rw [nextFree_append] at hf
  simp only [nextFree, Option.isNone_some, Bool.false_eq_true, if_false] at hl hf
  rw [span_append, span_cons] at hc
  rw [usedSum_append, usedSum_cons] at hu
  simp only [Option.isNone_some, Bool.false_eq_true, if_false] at hu
  obtain ⟨hpre, ⟨hsize, hmagic, hnext, hholds⟩, hpost⟩ := hl
  exact ⟨hpre, hf, hmagic, hsize, hnext, hholds, hpost, by dsimp only at hc; omega, by omega⟩

/-- `kfree` takes a client's pointer for a pointer of the used block that holds it. -/
theorem resolve_client {a : ℕ} (hnext : s.nextFree a ≠ alignTag)
    (hholds : HoldsClient s.mem a size c) (hlow : s.base ≤ a)
    (hend : a + hdrBytes + size ≤ s.base + s.capacity)
    (hfits : s.base + s.capacity < 4294967296) : s.resolve c.ptr = a + hdrBytes := by
  have hupper := hholds.upper
  have hpos := hholds.pos
  rcases hholds.start with hstart | ⟨habove, hraw, htag⟩
  · -- behind the header's size lies its link, which is no tag
    have hat : wsub c.ptr alignMetaBytes + 4 = a + 8 := by
      unfold alignMetaBytes hdrBytes at *
      rw [wsub_of_le (by omega) (by omega)]
      omega
    simp only [KHeap.resolve, hat]
    exact (if_neg fun h => hnext h.1).trans hstart
  · have hsub : wsub c.ptr alignMetaBytes = c.ptr - 8 := by
      unfold alignMetaBytes hdrBytes at *
      exact wsub_of_le (by omega) (by omega)
    have hat : c.ptr - 8 + 4 = c.ptr - 4 := by
      unfold alignMetaBytes hdrBytes at *
      omega
    have htop : a + hdrBytes < u32 (s.base + s.capacity) := by
      rw [u32_of_lt hfits]
      unfold alignMetaBytes hdrBytes at *
      omega
    simp only [KHeap.resolve, hsub, hat, hraw, htag, htop, and_true, true_and]
    exact if_pos (by omega)

theorem resolve_holds {a : ℕ} (hnext : s.nextFree a = 0) (hholds : HoldsClient s.mem a size c)
    (hlow : s.base ≤ a) (hend : a + hdrBytes + size ≤ s.base + s.capacity)
    (hfits : s.base + s.capacity < 4294967296) : s.resolve c.ptr = a + hdrBytes :=
  resolve_client (by rw [hnext]; decide) hholds hlow hend hfits

end Resolve

section Insert
variable {s : KHeap} {pre post : List (Block Client)} {size : ℕ} {c : Client} {h nx prev : ℕ}

/-- The search stops behind the last free block below `h`. -/
theorem findSlot_spec (fuel : ℕ) (done suf : List (Block Client))
    (hl : Laid s.mem s.base (done ++ suf) nx) (hp : LastFree hdrBytes s.base done prev)
    (hpos : 0 < s.base) (hh : s.base + span hdrBytes (done ++ suf) ≤ h) (hnx : nx = 0 ∨ h < nx)
    (hfuel : suf.length < fuel) :
    ∃ prev', s.findSlot h fuel prev (nextFree hdrBytes (s.base + span hdrBytes done) suf nx) =
        some (prev', nx) ∧ LastFree hdrBytes s.base (done ++ suf) prev' := by
  induction suf generalizing done prev fuel with
  | nil =>
    obtain ⟨fuel, rfl⟩ := Nat.exists_eq_succ_of_ne_zero (Nat.ne_zero_of_lt hfuel)
    have hstop : ¬ (nx ≠ 0 ∧ nx < h) := by omega
    simp only [nextFree, KHeap.findSlot, hstop, if_false, List.append_nil]
    exact ⟨prev, rfl, hp⟩
  | cons b suf ih =>
    have hassoc : done ++ b :: suf = (done ++ [b]) ++ suf := by simp
    have haddr : s.base + span hdrBytes (done ++ [b]) =
        s.base + span hdrBytes done + hdrBytes + b.size := by
      rw [span_append, span_cons, span_nil]
      omega
    rw [List.length_cons] at hfuel
    rw [hassoc] at hh
    cases hb : b.owner.isNone with
    | false =>
      simp only [nextFree, hb, Bool.false_eq_true, if_false]
      have := ih fuel _ (hassoc ▸ hl) (hp.used hb) hh (by omega)
      rwa [haddr, ← hassoc] at this
    | true =>
      obtain ⟨fuel, rfl⟩ := Nat.exists_eq_succ_of_ne_zero (Nat.ne_zero_of_lt hfuel)
      have hhead := (laid_append.mp hl).2.1
      unfold Header at hhead
      rw [Option.isNone_iff_eq_none.mp hb] at hhead
      have hnext : s.nextFree (s.base + span hdrBytes done) =
          nextFree hdrBytes (s.base + span hdrBytes done + hdrBytes + b.size) suf nx := hhead.2.2
      have hgo : s.base + span hdrBytes done ≠ 0 ∧ s.base + span hdrBytes done < h := by
        rw [span_append] at hh
        unfold hdrBytes at *
        omega
      simp only [nextFree, hb, if_true, KHeap.findSlot, hgo, ne_eq, not_false_eq_true, and_self,
        hnext]
      have := ih fuel _ (hassoc ▸ hl) (.free hb) hh (by omega)
      rwa [haddr, ← hassoc] at this

/-- The block of a live client freed in place, before it is merged. -/
theorem HeapRep.freed (hrep : HeapRep s (pre ++ ⟨size, some c⟩ :: post))
    (hp : LastFree hdrBytes s.base pre prev) :
    let a := s.base + span hdrBytes pre
    let nx := nextFree hdrBytes (a + hdrBytes + size) post 0
    HeapRep (KHeap.relink { s with
        mem := (s.mem.store a kheapMagicFree).store (a + 8) nx
        used := wsub s.used size } prev a) (pre ++ ⟨size, none⟩ :: post) := by
  obtain ⟨hpre, hf, -, hsize, -, -, hpost, hend, hused⟩ := hrep.used_block
  have hfits := hrep.fits
  have hsum1 := usedSum_le_span hdrBytes pre
  have hsum2 := usedSum_le_span hdrBytes post
  unfold KHeap.size at hsize
  generalize ha : s.base + span hdrBytes pre = a at *
  generalize hnx : nextFree hdrBytes (a + hdrBytes + size) post 0 = nx at *
  have hnx32 : nx < 4294967296 := by
    rcases nextFree_cases hdrBytes (a + hdrBytes + size) 0 post with ⟨-, h0⟩ | ⟨-, hlt, -⟩
    · omega
    · omega
  have hfree : kheapMagicFree < 4294967296 := by decide
  simp only [hnx]
  -- the two words written, and that nothing else is
  generalize hm : (s.mem.store a kheapMagicFree).store (a + 8) nx = m
  have hlow : ∀ lo hi, hi ≤ a → Agree s.mem m lo hi := fun lo hi hhi => hm ▸
    (store_agree _ _ _ (.inl (by omega))).trans (store_agree _ _ _ (.inl (by omega)))
  have hhigh : ∀ lo hi, a + 12 ≤ lo → Agree s.mem m lo hi := fun lo hi hlo => hm ▸
    (store_agree _ _ _ (.inr (by omega))).trans (store_agree _ _ _ (.inr (by omega)))
  have hma : m.load a = kheapMagicFree := by
    rw [← hm, load_store_of_disjoint _ _ (by omega), load_store_self _ _ hfree]
  have hms : m.load (a + 4) = size := by
    rw [← hm, load_store_of_disjoint _ _ (by omega), load_store_of_disjoint _ _ (by omega), hsize]
  have hmn : m.load (a + 8) = nx := by rw [← hm, load_store_self _ _ hnx32]
  have ha32 : a < 4294967296 := by omega
  obtain ⟨hrl, hrf, hrag⟩ := relink_laid (s := { s with mem := m, used := wsub s.used size })
    (hpre.transport (hlow _ _ (by omega))) hf hp hrep.base_pos ha32
  dsimp only at hrl hrf hrag
  rw [ha] at hrag
  have hload (x : ℕ) (hx : a ≤ x) := (hrag (x + 4)).load hx (le_refl _)
  refine ⟨by simpa using hrep.base_pos, by simpa using hrep.capacity, by simpa using hfits,
    laid_append.mpr ⟨?_, ⟨?_, ?_⟩, ?_⟩, ?_, ?_, ?_⟩
  · simpa [nextFree, ha] using hrl
  · simp only [KHeap.relink_base, ha]
    rw [hload _ (by omega), hms]
  · simp only [KHeap.relink_base, ha, hnx]
    rw [hload _ (by omega), hload _ (by omega)]
    exact ⟨hma, hmn⟩
  · simp only [KHeap.relink_base, ha]
    refine hpost.transport ((hhigh _ _ ?_).trans ((hrag _).mono ?_ (le_refl _)))
    · unfold hdrBytes
      omega
    · omega
  · have := hrep.covers
    rw [span_append, span_cons] at this ⊢
    exact this
  · rw [hrf, KHeap.relink_base, nextFree_append]
    simp [nextFree, ha]
  · rw [KHeap.relink_used, usedSum_append, usedSum_cons, hused]
    simp only [Option.isNone_none, if_true]
    unfold wsub u32 kheapSize at *
    omega

end Insert

section Coalesce
variable {s : KHeap} {pre post : List (Block Client)} {n k prev : ℕ}

/-- Two free neighbours become one free block. -/
theorem HeapRep.absorbed (hrep : HeapRep s (pre ++ ⟨n, none⟩ :: ⟨k, none⟩ :: post)) :
    let a := s.base + span hdrBytes pre
    HeapRep (s.absorb a (a + 12 + n)) (pre ++ ⟨n + 12 + k, none⟩ :: post) := by
  obtain ⟨hpre, hf, hmagic, hsize, hnext, hrest, hend⟩ := hrep.free_block rfl
  obtain ⟨⟨hksize, -, hknext⟩, hpost⟩ := hrest
  have hfits := hrep.fits
  have hu := hrep.used
  rw [usedSum_append, usedSum_cons, usedSum_cons] at hu
  rw [span_cons] at hend
  dsimp only at hsize hksize hknext hpost hend ⊢
  unfold KHeap.magic at hmagic
  unfold KHeap.size at hsize
  unfold KHeap.nextFree at hnext
  generalize ha : s.base + span hdrBytes pre = a at *
  have hb : a + hdrBytes + n + hdrBytes + k = a + 24 + n + k := by
    unfold hdrBytes
    omega
  have hab : a + hdrBytes + n = a + 12 + n := rfl
  rw [hb] at hknext hpost
  rw [hab] at hksize hknext hend
  generalize hnx : nextFree hdrBytes (a + 24 + n + k) post 0 = nx at *
  have hnx32 : nx < 4294967296 := hknext ▸ load_lt _ _
  unfold hdrBytes at hend
  have hsum : u32 (n + u32 (12 + k)) = n + 12 + k := by
    unfold u32
    omega
  have hsum32 : n + 12 + k < 4294967296 := by omega
  generalize hm : ((s.mem.store (a + 4) (n + 12 + k)).store (a + 8) nx).store (a + 12 + n)
    kheapMagicDead = m
  have habsorb : s.absorb a (a + 12 + n) = { s with mem := m } := by
    simp only [KHeap.absorb, KHeap.setSize, KHeap.setNextFree, KHeap.setMagic, KHeap.size,
      KHeap.nextFree, hsize, hksize, hdrBytes, hsum]
    rw [load_store_of_disjoint _ _ (by omega), hknext, hm]
  have hlow : ∀ lo hi, hi ≤ a → Agree s.mem m lo hi := fun lo hi hhi => hm ▸
    (store_agree _ _ _ (.inl (by omega))).trans ((store_agree _ _ _ (.inl (by omega))).trans
      (store_agree _ _ _ (.inl (by omega))))
  have hhigh : ∀ lo hi, a + 24 + n ≤ lo → Agree s.mem m lo hi := fun lo hi hlo => hm ▸
    (store_agree _ _ _ (.inr (by omega))).trans ((store_agree _ _ _ (.inr (by omega))).trans
      (store_agree _ _ _ (.inr (by omega))))
  have hma : m.load a = kheapMagicFree := by
    rw [← hm, load_store_of_disjoint _ _ (by omega), load_store_of_disjoint _ _ (by omega),
      load_store_of_disjoint _ _ (by omega), hmagic]
  have hms : m.load (a + 4) = n + 12 + k := by
    rw [← hm, load_store_of_disjoint _ _ (by omega), load_store_of_disjoint _ _ (by omega),
      load_store_self _ _ hsum32]
  have hmn : m.load (a + 8) = nx := by
    rw [← hm, load_store_of_disjoint _ _ (by omega), load_store_self _ _ hnx32]
  have hc : a + hdrBytes + (n + 12 + k) = a + 24 + n + k := by
    unfold hdrBytes
    omega
  rw [habsorb]
  refine ⟨hrep.base_pos, hrep.capacity, hfits, laid_append.mpr ⟨?_, ⟨?_, ?_⟩, ?_⟩, ?_, ?_, ?_⟩
  · simp only [nextFree, Option.isNone_none, if_true, ha]
    exact hpre.transport (hlow _ _ (by omega))
  · simpa only [ha] using hms
  · simp only [ha, hc, hnx]
    exact ⟨hma, hmn⟩
  · simp only [ha, hc]
    exact hpost.transport (hhigh _ _ (by omega))
  · have := hrep.covers
    rw [span_append, span_cons, span_cons] at this
    rw [span_append, span_cons]
    unfold hdrBytes at *
    dsimp only at this ⊢
    omega
  · rw [hf, nextFree_append]
    simp only [nextFree, Option.isNone_none, if_true, ha]
  · rw [usedSum_append, usedSum_cons, hu]
    simp

theorem separated_append {xs ys : List (Block Client)} : Separated (xs ++ ys) ↔
    Separated xs ∧ Separated ys ∧ ∀ x ∈ xs.getLast?, ∀ y ∈ ys.head?,
      x.owner.isNone = false ∨ y.owner.isNone = false := List.isChain_append

theorem separated_cons {b : Block Client} {xs : List (Block Client)} : Separated (b :: xs) ↔
    (∀ y ∈ xs.head?, b.owner.isNone = false ∨ y.owner.isNone = false) ∧ Separated xs :=
  List.isChain_cons

/-- A freed block takes in the block behind it if that one is free. -/
theorem coalesceNext_spec (hrep : HeapRep s (pre ++ ⟨n, none⟩ :: post)) (hsep : Separated post) :
    ∃ n' post', HeapRep (s.coalesceNext (s.base + span hdrBytes pre)) (pre ++ ⟨n', none⟩ :: post') ∧
      Separated (⟨n', none⟩ :: post') ∧ owners post' = owners post ∧
      (s.coalesceNext (s.base + span hdrBytes pre)).base = s.base ∧
      Coarser hdrBytes s.base (pre ++ ⟨n, none⟩ :: post) (pre ++ ⟨n', none⟩ :: post') := by
  obtain ⟨-, -, -, hsize, hnext, hrest, hend⟩ := hrep.free_block rfl
  have hfits := hrep.fits
  dsimp only at hsize hnext hrest hend
  have hat : u32 (s.base + span hdrBytes pre + hdrBytes + n) =
      s.base + span hdrBytes pre + hdrBytes + n := u32_of_lt (by omega)
  cases post with
  | nil =>
    refine ⟨n, [], ?_, ?_, rfl, ?_, .refl _ _ _⟩
    · simpa [KHeap.coalesceNext, hnext, nextFree] using hrep
    · simp [Separated]
    · simp [KHeap.coalesceNext, hnext, nextFree]
  | cons b post =>
    cases hb : b.owner with
    | none =>
      obtain ⟨k, owner⟩ := b
      cases hb
      obtain ⟨⟨-, hmagic, -⟩, -⟩ := hrest
      have hne : s.base + span hdrBytes pre + hdrBytes + n ≠ 0 := by
        unfold hdrBytes
        omega
      have hgo : s.coalesceNext (s.base + span hdrBytes pre) =
          s.absorb (s.base + span hdrBytes pre) (s.base + span hdrBytes pre + hdrBytes + n) := by
        simp only [KHeap.coalesceNext, hnext, nextFree, Option.isNone_none, if_true, hsize, hat]
        exact if_pos ⟨hne, trivial, hmagic⟩
      rw [hgo]
      rw [separated_cons] at hsep
      exact ⟨n + 12 + k, post, hrep.absorbed, separated_cons.mpr hsep, by simp [owners], rfl,
        coarser_join _ _ _ _ _ _ _⟩
    | some c =>
      -- the next free block, if there is one, lies behind a block in use
      have hfar : ¬ (nextFree hdrBytes (s.base + span hdrBytes pre + hdrBytes + n)
          (b :: post) 0 ≠ 0 ∧
          nextFree hdrBytes (s.base + span hdrBytes pre + hdrBytes + n) (b :: post) 0 =
            s.base + span hdrBytes pre + hdrBytes + n) := by
        have hused : b.owner.isNone = false := by rw [hb]; rfl
        simp only [nextFree, hused, Bool.false_eq_true, if_false]
        rcases nextFree_cases hdrBytes
          (s.base + span hdrBytes pre + hdrBytes + n + hdrBytes + b.size)
          0 post with ⟨-, h0⟩ | ⟨hle, -⟩
        · omega
        · unfold hdrBytes at *
          omega
      have hstay : s.coalesceNext (s.base + span hdrBytes pre) = s := by
        simp only [KHeap.coalesceNext, hnext, hsize, hat]
        exact if_neg fun h => hfar ⟨h.1, h.2.1⟩
      rw [hstay]
      refine ⟨n, b :: post, hrep, separated_cons.mpr ⟨fun y hy => .inr ?_, hsep⟩, rfl, rfl,
        .refl _ _ _⟩
      rw [List.head?_cons, Option.mem_some_iff] at hy
      rw [← hy, hb]
      rfl

/-- A freed block joins the block before it if that one is free. -/
theorem coalescePrev_spec (hrep : HeapRep s (pre ++ ⟨n, none⟩ :: post)) (hpre : Separated pre)
    (hpost : Separated (⟨n, none⟩ :: post)) (hp : LastFree hdrBytes s.base pre prev) :
    ∃ blocks, HeapRep (s.coalescePrev prev (s.base + span hdrBytes pre)) blocks ∧
      Separated blocks ∧ owners blocks = owners pre ++ owners post ∧
      Coarser hdrBytes s.base (pre ++ ⟨n, none⟩ :: post) blocks := by
  have hpos := hrep.base_pos
  have hfits := hrep.fits
  have hcov := hrep.covers
  rw [span_append, span_cons] at hcov
  have howners : owners (pre ++ ⟨n, none⟩ :: post) = owners pre ++ owners post := by
    simp [owners]
  rcases hp with ⟨hall, rfl⟩ | ⟨xs, f, ys, rfl, hfree, hys, rfl⟩
  · have hstay : s.coalescePrev 0 (s.base + span hdrBytes pre) = s := if_neg (by simp)
    rw [hstay]
    refine ⟨_, hrep, separated_append.mpr ⟨hpre, hpost, fun x hx y _ => .inl ?_⟩, howners,
      .refl _ _ _⟩
    exact hall x (List.mem_of_getLast? hx)
  · have hf : HeapRep s (xs ++ f :: (ys ++ ⟨n, none⟩ :: post)) := by simpa using hrep
    obtain ⟨-, -, hmagic, hsize, -⟩ := hf.free_block hfree
    have hne : s.base + span hdrBytes xs ≠ 0 := by omega
    rw [span_append, span_cons] at hcov
    have hat : u32 (s.base + span hdrBytes xs + hdrBytes + f.size) =
        s.base + span hdrBytes xs + hdrBytes + f.size := u32_of_lt (by omega)
    rw [span_append, span_cons]
    cases ys with
    | nil =>
      obtain ⟨k, owner⟩ := f
      rw [Option.isNone_iff_eq_none] at hfree
      cases hfree
      have hend : s.base +
          (span hdrBytes xs + (hdrBytes + k + span hdrBytes ([] : List (Block Client)))) =
          s.base + span hdrBytes xs + hdrBytes + k := by
        rw [span_nil]
        omega
      have hgo : s.coalescePrev (s.base + span hdrBytes xs)
          (s.base + span hdrBytes xs + hdrBytes + k) =
          s.absorb (s.base + span hdrBytes xs) (s.base + span hdrBytes xs + hdrBytes + k) := by
        simp only [KHeap.coalescePrev, hsize, hat]
        exact if_pos ⟨hne, trivial, hmagic⟩
      rw [hend, hgo]
      obtain ⟨hxs, -, hlast⟩ := separated_append.mp hpre
      refine ⟨_, hf.absorbed, separated_append.mpr ⟨hxs, ?_, fun x hx y hy => ?_⟩, ?_, ?_⟩
      · rw [separated_cons] at hpost ⊢
        exact hpost
      · have := hlast x hx ⟨k, none⟩ (by simp)
        exact .inl (this.resolve_right (by simp))
      · simp [owners]
      · rw [List.append_assoc]
        exact coarser_join _ _ _ _ _ _ _
    | cons g ys =>
      have hstay : s.coalescePrev (s.base + span hdrBytes xs)
          (s.base + (span hdrBytes xs + (hdrBytes + f.size + span hdrBytes (g :: ys)))) = s := by
        refine if_neg ?_
        rintro ⟨-, heq, -⟩
        rw [hsize, hat, span_cons] at heq
        unfold hdrBytes at heq
        omega
      rw [hstay]
      refine ⟨_, hrep, separated_append.mpr ⟨hpre, hpost, fun x hx y _ => .inl ?_⟩, howners,
        .refl _ _ _⟩
      have hx' : x ∈ (g :: ys).getLast? := by
        simpa [List.getLast?_append] using hx
      exact hys x (List.mem_of_getLast? hx')

end Coalesce

section Kfree
variable {s : KHeap} {live : List Client} {c : Client}

@[simp] theorem KHeap.coalescePrev_base (prev h : ℕ) : (s.coalescePrev prev h).base = s.base := by
  unfold KHeap.coalescePrev
  split <;> rfl

/-- The heap after the first half of `kfree`, in which the block at `a` has been marked free and
linked between `prev` and `nx`. -/
def KHeap.unlinked (s : KHeap) (prev a size nx : ℕ) : KHeap :=
  KHeap.relink { s with
    mem := (s.mem.store a kheapMagicFree).store (a + 8) nx
    used := wsub s.used size } prev a

/-- `kfree` of a live pointer frees the block in place and merges it with its neighbours. -/
theorem kfree_eq {pre post : List (Block Client)} {size : ℕ}
    (hrep : HeapRep s (pre ++ ⟨size, some c⟩ :: post)) : ∃ prev, LastFree hdrBytes s.base pre prev ∧
      let a := s.base + span hdrBytes pre
      s.kfree c.ptr = some (((s.unlinked prev a size
        (nextFree hdrBytes (a + hdrBytes + size) post 0)).coalesceNext a).coalescePrev prev a) := by
  obtain ⟨hpre, hf, hmagic, hsize, hnext0, hholds, hpost, hend, -⟩ := hrep.used_block
  have hfits := hrep.fits
  have hcap := hrep.capacity
  have hresolve := resolve_holds hnext0 hholds (by omega) (by omega) (by omega)
  have hpos := hrep.base_pos
  have hptr : c.ptr ≠ 0 := by
    have := hholds.lower
    unfold hdrBytes at this
    omega
  have hlen : pre.length < s.capacity + 1 := by
    have h1 : pre.length ≤ span hdrBytes pre := length_le_span pre (by decide)
    have h2 := hrep.covers
    rw [span_append] at h2
    rw [hcap]
    omega
  have hhdr : wsub (s.resolve c.ptr) hdrBytes = s.base + span hdrBytes pre := by
    rw [hresolve, wsub_of_le (by omega) (by omega)]
    omega
  have hvalid : s.hdrValid (s.base + span hdrBytes pre) kheapMagicUsed := by
    refine ⟨?_, hmagic⟩
    rw [hcap]
    unfold u32
    omega
  generalize ha : s.base + span hdrBytes pre = a at *
  have hnx : nextFree hdrBytes (a + hdrBytes + size) post 0 = 0 ∨
      a < nextFree hdrBytes (a + hdrBytes + size) post 0 := by
    rcases nextFree_cases hdrBytes (a + hdrBytes + size) 0 post with ⟨-, h0⟩ | ⟨hle, -⟩
    · exact .inl h0
    · unfold hdrBytes at *
      omega
  have hbelow : ∀ lo hi, hi ≤ a → Agree s.mem (s.mem.store a kheapMagicFree) lo hi :=
    fun lo hi hhi => store_agree _ _ _ (.inl hhi)
  have hsize' : (s.setMagic a kheapMagicFree).size a = size := by
    rw [← hsize]
    exact load_store_of_disjoint _ _ (by omega)
  -- the search, in the heap whose block is already marked free
  let marked : KHeap := { s with mem := s.mem.store a kheapMagicFree, used := wsub s.used size }
  obtain ⟨prev, hslot, hlast⟩ := findSlot_spec (s := marked) (h := a) (s.capacity + 1) []
    pre (hpre.transport (hbelow _ _ (by omega))) .nil hpos (le_of_eq ha) hnx hlen
  have hfind : marked.findSlot a (s.capacity + 1) 0 s.freeList =
      some (prev, nextFree hdrBytes (a + hdrBytes + size) post 0) := by
    rw [hf]
    exact hslot
  refine ⟨prev, hlast, ?_⟩
  simp only [KHeap.kfree, hptr, if_false, hhdr, hvalid, not_true, hsize']
  simp only [KHeap.setMagic]
  rw [hfind]
  rfl

theorem kfree_blocks {pre post : List (Block Client)} {size : ℕ}
    (hrep : HeapRep s (pre ++ ⟨size, some c⟩ :: post))
    (hsep : Separated (pre ++ ⟨size, some c⟩ :: post)) : ∃ t blocks, s.kfree c.ptr = some t ∧
      t.base = s.base ∧ HeapRep t blocks ∧ Separated blocks ∧
      owners blocks = owners pre ++ owners post ∧
      Coarser hdrBytes s.base (pre ++ ⟨size, some c⟩ :: post) blocks := by
  obtain ⟨hspre, hspost, -⟩ := separated_append.mp hsep
  rw [separated_cons] at hspost
  obtain ⟨prev, hlast, heq⟩ := kfree_eq hrep
  dsimp only at heq
  have hurep := hrep.freed hlast
  have hub : (s.unlinked prev (s.base + span hdrBytes pre) size (nextFree hdrBytes
      (s.base + span hdrBytes pre + hdrBytes + size) post 0)).base = s.base := KHeap.relink_base _
  obtain ⟨n', post', hnext, hsepn, howners, hbase, hmerge⟩ := coalesceNext_spec hurep hspost.2
  rw [KHeap.relink_base] at hnext hbase hmerge
  obtain ⟨blocks, hprev, hsepb, hownb, hmerge'⟩ :=
    coalescePrev_spec hnext hspre hsepn (hbase.symm ▸ hlast)
  rw [hbase] at hprev hmerge'
  exact ⟨_, blocks, heq, (KHeap.coalescePrev_base _ _).trans hbase, hprev, hsepb,
    hownb.trans (by rw [howners]), (coarser_owner _ _ _ _ _ _ _).trans (hmerge.trans hmerge')⟩

theorem block_of_live {blocks : List (Block Client)} (hperm : (owners blocks).Perm live)
    (hc : c ∈ live) : ∃ pre size post, blocks = pre ++ ⟨size, some c⟩ :: post ∧
      (owners pre ++ owners post).Perm (live.erase c) := by
  obtain ⟨b, hb, hbc⟩ := List.mem_filterMap.mp (hperm.mem_iff.mpr hc)
  obtain ⟨pre, post, rfl⟩ := List.append_of_mem hb
  obtain ⟨size, owner⟩ := b
  cases hbc
  refine ⟨pre, size, post, rfl, ?_⟩
  have : (owners pre ++ c :: owners post).Perm live := by simpa [owners] using hperm
  simpa using (List.perm_middle.symm.trans this).erase c

theorem kfree_heapOk (h : HeapOk s live) (hc : c ∈ live) :
    ∃ t, s.kfree c.ptr = some t ∧ t.base = s.base ∧ HeapOk t (live.erase c) := by
  obtain ⟨blocks, hrep, hsep, hperm⟩ := h
  obtain ⟨pre, size, post, rfl, hperm'⟩ := block_of_live hperm hc
  obtain ⟨t, blocks', heq, hbase, hrep', hsep', hown, -⟩ := kfree_blocks hrep hsep
  exact ⟨t, heq, hbase, blocks', hrep', hsep', hown ▸ hperm'⟩

theorem HeapOk.mem_bounds (h : HeapOk s live) (hc : c ∈ live) :
    0 < c.bytes ∧ s.base ≤ c.ptr ∧ c.ptr + c.bytes ≤ s.base + kheapSize ∧
      s.base + kheapSize < 4294967296 := by
  obtain ⟨blocks, hrep, hsep, hperm⟩ := h
  obtain ⟨b, hb, hbc⟩ := List.mem_filterMap.mp (hperm.mem_iff.mpr hc)
  obtain ⟨pre, post, rfl⟩ := List.append_of_mem hb
  obtain ⟨size, owner⟩ := b
  cases hbc
  obtain ⟨-, -, -, -, -, hholds, -, hend, -⟩ := hrep.used_block
  have hlower := hholds.lower
  have hupper := hholds.upper
  exact ⟨hholds.pos, by omega, by omega, hrep.fits⟩

end Kfree

end Leg

import Leg.Process.SpaceTables

/-! Loading an image, mapping the initial stack and copying a parent's pages: each of them keeps
the lists of what the new address space owns exact, wherever it stops. -/
namespace Leg
open Slots

/-- The lowest address of the pages `setup_initial_stack` maps. -/
def initialStackFloor : ℕ := procStackTop - procStackInitPages * pageSize

/-- `c` comes from `b` by changes to the space `pgd` that map nothing at or above `limit`. -/
structure Extends (kpb : ℕ) (a b c : Vm) (B : List Client) (pgd limit : ℕ) : Prop where
  space : Space kpb a c B pgd
  kept : ∀ j < procVaMb, ∀ i, limit ≤ j * 0x100000 + i * pageSize →
    pageAt kpb c pgd j i = pageAt kpb b pgd j i

section Load
variable {kpb : ℕ} {a b c d : Vm} {B : List Client} {pgd limit : ℕ}

theorem Extends.trans (h : Extends kpb a b c B pgd limit) (h' : Extends kpb a c d B pgd limit) :
    Extends kpb a b d B pgd limit :=
  ⟨h'.space, fun j hj i hi => (h'.kept j hj i hi).trans (h.kept j hj i hi)⟩

theorem Space.extends (h : Space kpb a b B pgd) : Extends kpb a b b B pgd limit :=
  ⟨h, fun _ _ _ _ => rfl⟩

theorem Space.getOrAlloc (limit : ℕ) (hk : kpb < 4294967296) (hal : kpb % 1024 = 0)
    (h : Space kpb a b B pgd) {mb : ℕ} (hmb : mb < procVaMb) :
    ∃ c pt, b.getOrAllocL2 kpb pgd mb = some (c, pt) ∧
      Extends kpb a b c B pgd limit ∧ (pt ≠ 0 → tableOf kpb c pgd mb = some pt) := by
  unfold Vm.getOrAllocL2
  by_cases htype : entryType (b.l1 pgd mb) = l1PageTable
  · rw [if_pos htype]
    exact ⟨b, _, rfl, h.extends, fun _ => if_pos htype⟩
  · rw [if_neg htype]
    have hfree : tableOf kpb b pgd mb = none := if_neg htype
    rcases h.newTable hk hal hmb hfree with hr | ⟨b', pt, hr, hpt, hs, htable, -, -, hkept⟩
    · rw [hr]
      exact ⟨b, 0, rfl, h.extends, fun hne => absurd rfl hne⟩
    · rw [hr]
      refine ⟨_, pt, rfl, ?_⟩
      rw [if_pos hpt]
      exact ⟨⟨hs, fun j hj i _ => hkept j hj i⟩, fun _ => htable⟩

theorem l2Idx_eq (va : ℕ) : l2Idx va = va / pageSize % l2Entries := by
  unfold l2Idx
  rw [show (0xFF : ℕ) = 2 ^ 8 - 1 from rfl, Nat.and_two_pow_sub_one_eq_mod,
    Nat.shiftRight_eq_div_pow]
  rfl

/-- `map_pages` over whole pages below `limit`. -/
theorem Space.mapPagesLoop (hk : kpb < 4294967296) (hal : kpb % 1024 = 0) {pageBase : ℕ}
    (hbase : pageBase % pageSize = 0) (hlimit : limit ≤ procUserVaTop) (k i : ℕ)
    (h : Space kpb a b B pgd) (htop : pageBase + (i + k) * pageSize ≤ limit) :
    ∃ c ok, mapPagesLoop kpb pgd pageBase k i b = some (c, ok) ∧
      Extends kpb a b c B pgd limit := by
  induction k generalizing i b with
  | zero => exact ⟨b, true, rfl, h.extends⟩
  | succ k ih =>
    have hva : u32 (pageBase + u32 (i * pageSize)) = pageBase + i * pageSize := by
      unfold u32 pageSize procUserVaTop at *
      omega
    have hnext : pageBase + (i + 1 + k) * pageSize ≤ limit := by
      rwa [show i + 1 + k = i + (k + 1) by omega]
    simp only [Leg.mapPagesLoop, hva]
    generalize hpage : pageBase + i * pageSize = va at *
    have hmb : va >>> 20 < procVaMb := by
      rw [Nat.shiftRight_eq_div_pow]
      unfold procVaMb procUserVaTop pageSize at *
      omega
    have hidx := l2Idx_eq va
    have hsplit : va = va >>> 20 * 0x100000 + l2Idx va * pageSize := by
      rw [hidx, Nat.shiftRight_eq_div_pow]
      unfold pageSize l2Entries at *
      omega
    have hbelow : va + pageSize ≤ limit := by
      unfold pageSize at *
      omega
    obtain ⟨b1, pt, hr, hext, htable⟩ := h.getOrAlloc limit hk hal hmb
    rw [hr]
    simp only [Option.bind_eq_bind, Option.bind_some]
    by_cases hpt : pt = 0
    · rw [if_pos hpt]
      exact ⟨b1, false, rfl, hext⟩
    rw [if_neg hpt]
    by_cases hmapped : entryType (b1.l2 pt (l2Idx va)) = l2Invalid
    swap
    · -- the page is mapped already
      rw [if_pos hmapped]
      obtain ⟨c, ok, hc, hc'⟩ := ih (i + 1) hext.space hnext
      exact ⟨c, ok, by simp [hc], hext.trans hc'⟩
    rw [if_neg (not_not.mpr hmapped)]
    have hnone : pageOf b1 pt (l2Idx va) = none := by
      unfold pageOf
      rw [hmapped]
      rfl
    have hi : l2Idx va < l2Entries := hidx ▸ Nat.mod_lt _ (by decide)
    rcases hext.space.mapPage hmb (htable hpt) hi hnone rfl with hpa | ⟨hne, hs, -, -, hkept⟩
    · rw [hpa]
      exact ⟨b1, false, rfl, hext⟩
    · generalize b1.pageAlloc = r at *
      obtain ⟨b2, pa⟩ := r
      dsimp only at hne hs hkept ⊢
      rw [if_neg hne]
      have hmap : Extends kpb a b1 (b2.mmuMapPage pt va pa) B pgd limit := by
        refine ⟨hs, fun j hj i' hji => hkept j hj i' ?_⟩
        unfold pageSize at *
        omega
      obtain ⟨c, ok, hc, hc'⟩ := ih (i + 1) hs hnext
      exact ⟨c, ok, hc, (hext.trans hmap).trans hc'⟩

theorem Space.mapPages (hk : kpb < 4294967296) (hal : kpb % 1024 = 0) {va memsz : ℕ}
    (hlimit : limit ≤ procUserVaTop) (haligned : limit % pageSize = 0) (hend : va + memsz ≤ limit)
    (h : Space kpb a b B pgd) : ∃ c ok, mapPages kpb pgd va memsz b = some (c, ok) ∧
      Extends kpb a b c B pgd limit := by
  have hva : va < 4294967296 := by
    unfold procUserVaTop at hlimit
    omega
  have hbase : va &&& bnot (pageSize - 1) = va / pageSize * pageSize := alignDown_page hva
  unfold Leg.mapPages
  simp only [hbase]
  refine h.mapPagesLoop hk hal (Nat.mul_mod_left _ _) hlimit _ 0 ?_
  rw [wsub_of_le (Nat.div_mul_le_self _ _) hva]
  unfold u32 pageSize procUserVaTop at *
  omega

/-- Every segment that is mapped lies below the initial stack pages. -/
def Llf.BelowStack (image : Llf) : Prop :=
  ∀ ph ∈ image.phdrs, ph.type ≠ llfSegNull → ph.vaddr + ph.memsz ≤ initialStackFloor

/-- Every segment that is mapped lies below `limit`. -/
def Llf.Below (limit : ℕ) (image : Llf) : Prop :=
  ∀ ph ∈ image.phdrs, ph.type ≠ llfSegNull → ph.vaddr + ph.memsz ≤ limit

theorem Space.mapSegments (hk : kpb < 4294967296) (hal : kpb % 1024 = 0)
    (hlimit : limit ≤ procUserVaTop) (haligned : limit % pageSize = 0) {phs : List LlfPhdr}
    (hphs : ∀ ph ∈ phs, ph.type ≠ llfSegNull → ph.vaddr + ph.memsz ≤ limit)
    (h : Space kpb a b B pgd) : ∃ c ok, mapSegments kpb pgd phs b = some (c, ok) ∧
      Extends kpb a b c B pgd limit := by
  induction phs generalizing b with
  | nil => exact ⟨b, true, rfl, h.extends⟩
  | cons ph phs ih =>
    have hrest := fun q hq => hphs q (List.mem_cons_of_mem ph hq)
    unfold Leg.mapSegments
    by_cases hnull : ph.type = llfSegNull
    · rw [if_pos hnull]
      exact ih hrest h
    · rw [if_neg hnull]
      obtain ⟨c, ok, hc, hext⟩ := h.mapPages hk hal hlimit haligned
        (hphs ph (List.mem_cons_self ..) hnull)
      rw [hc]
      simp only [Option.bind_eq_bind, Option.bind_some]
      cases ok with
      | false => exact ⟨c, false, rfl, hext⟩
      | true =>
        obtain ⟨d, ok, hd, hext'⟩ := ih hrest hext.space
        exact ⟨d, ok, hd, hext.trans hext'⟩

theorem Space.llfLoad (hk : kpb < 4294967296) (hal : kpb % 1024 = 0)
    (hlimit : limit ≤ procUserVaTop) (haligned : limit % pageSize = 0) {image : Llf} (bufSize : ℕ)
    (himage : image.Below limit) (h : Space kpb a b B pgd) :
    ∃ c entry, llfLoad kpb pgd image bufSize b = some (c, entry) ∧
      Extends kpb a b c B pgd limit := by
  unfold Leg.llfLoad
  split
  next => exact ⟨b, none, rfl, h.extends⟩
  next =>
    split
    next => exact ⟨b, none, rfl, h.extends⟩
    next =>
      obtain ⟨c, ok, hc, hext⟩ := h.mapSegments hk hal hlimit haligned himage
      rw [hc]
      exact ⟨c, _, rfl, hext⟩

theorem alignUp_sector_lt (size : ℕ) : alignUp size 512 + 7 < 4294967296 := by
  have : alignUp size 512 = u32 (size + 512 - 1) / 512 * 512 :=
    alignUp_two_pow (k := 9) (by decide)
  unfold u32 at this
  omega

theorem Space.kmalloc {size : ℕ} (hsize : size + 7 < 4294967296) (h : Space kpb a b B pgd) :
    b.kmalloc size = some (b, 0) ∨ ∃ b' buf, b.kmalloc size = some (b', buf) ∧ buf ≠ 0 ∧
      Space kpb a b' (⟨buf, size⟩ :: B) pgd ∧ b'.l1 = b.l1 ∧ b'.l2 = b.l2 := by
  rcases Holds.kmalloc h hsize with hr | ⟨b', buf, hr, hbuf, hb', h1, h2⟩
  · exact .inl hr
  · refine .inr ⟨b', buf, hr, hbuf, ?_, h1, h2⟩
    have hbl : spaceBlocks kpb b' pgd = spaceBlocks kpb b pgd := spaceBlocks_congr (by rw [h1])
    have hpg : spacePages kpb b' pgd = spacePages kpb b pgd :=
      spacePages_congr (by rw [h1]) fun _ _ => by rw [h2]
    unfold Space
    rw [hbl, hpg]
    exact hb'.perm List.perm_middle.symm (.refl _)

/-- `load_user_image` gives back its buffer. -/
theorem Space.loadUserImage (hk : kpb < 4294967296) (hal : kpb % 1024 = 0)
    (hlimit : limit ≤ procUserVaTop) (haligned : limit % pageSize = 0) {file : Option FsFile}
    (hfile : ∀ f, file = some f → f.image.Below limit) (h : Space kpb a b B pgd) :
    ∃ c entry, loadUserImage kpb pgd file b = some (c, entry) ∧
      Extends kpb a b c B pgd limit := by
  cases file with
  | none => exact ⟨b, none, rfl, h.extends⟩
  | some f =>
    simp only [Leg.loadUserImage]
    split
    next => exact ⟨b, none, rfl, h.extends⟩
    next =>
      have hsize := alignUp_sector_lt f.size
      generalize alignUp f.size 512 = llfSize at *
      rcases h.kmalloc hsize with hr | ⟨b1, buf, hr, hbuf, hs1, h1, h2⟩
      · rw [hr]
        exact ⟨b, none, rfl, h.extends⟩
      rw [hr]
      simp only [Option.bind_eq_bind, Option.bind_some, hbuf, if_false]
      obtain ⟨c, entry, hc, hext⟩ : ∃ c entry, readAndLoad kpb pgd f llfSize b1 = some (c, entry) ∧
          Extends kpb a b1 c (⟨buf, llfSize⟩ :: B) pgd limit := by
        unfold readAndLoad
        split
        next => exact hs1.llfLoad hk hal hlimit haligned llfSize (hfile f rfl)
        next => exact ⟨b1, none, rfl, hs1.extends⟩
      rw [hc]
      simp only [Option.bind_some]
      have hfront := Holds.perm hext.space List.perm_middle (.refl _)
      obtain ⟨d, hd, hd', h1', h2'⟩ := hfront.free (List.mem_cons_self ..)
      rw [List.erase_cons_head] at hd'
      rw [hd]
      refine ⟨d, entry, rfl, ?_, fun j hj i hi => ?_⟩
      · unfold Space
        rw [spaceBlocks_congr (show d.l1 pgd = c.l1 pgd by rw [h1']),
          spacePages_congr (show d.l1 pgd = c.l1 pgd by rw [h1']) fun _ _ => by rw [h2']]
        exact hd'
      · have hd1 : pageAt kpb d pgd j i = pageAt kpb c pgd j i := by
          simp only [pageAt, tableOf, pageOf, h1', h2']
        have hb1' : pageAt kpb b1 pgd j i = pageAt kpb b pgd j i := by
          simp only [pageAt, tableOf, pageOf, h1, h2]
        rw [hd1, hext.kept j hj i hi, hb1']

end Load

section Stack
variable {kpb : ℕ} {a b : Vm} {B : List Client} {pgd pt : ℕ}

theorem stackPage_va {n : ℕ} (hn : n < procStackInitPages) :
    wsub procStackTop (u32 ((n + 1) * pageSize)) >>> 20 = 31 ∧
      l2Idx (wsub procStackTop (u32 ((n + 1) * pageSize))) = 0xFE - n ∧
      ¬ (n > 0 ∧ wsub procStackTop (u32 ((n + 1) * pageSize)) >>> 20 ≠
        wsub procStackTop (u32 (n * pageSize)) >>> 20) := by
  rw [l2Idx_eq, Nat.shiftRight_eq_div_pow, Nat.shiftRight_eq_div_pow]
  unfold wsub u32 procStackTop procStackInitPages pageSize l2Entries at *
  omega

/-- The initial stack pages from the `n`-th on: their entries are still free. -/
theorem Space.addStackPages (hpt : tableOf kpb b pgd 31 = some pt) (k : ℕ) {p : Process}
    (hpgd : p.pgd = pgd) (hsp : p.stackPt = pt) (hn : p.stackPages + k = procStackInitPages)
    (hfree : ∀ m, p.stackPages ≤ m → m < procStackInitPages → pageOf b pt (0xFE - m) = none)
    (h : Space kpb a b B pgd) : ∃ c q ok, addStackPages kpb k b p = some (c, q, ok) ∧
      Space kpb a c B pgd ∧ q.pgd = pgd := by
  induction k generalizing b p with
  | zero => exact ⟨b, p, true, rfl, h, hpgd⟩
  | succ k ih =>
    have hlt : p.stackPages < procStackInitPages := by omega
    obtain ⟨-, hidx, hcross⟩ := stackPage_va hlt
    unfold Leg.addStackPages Leg.processAddPage
    simp only [Option.bind_eq_bind, hcross, if_false, Option.bind_some, not_true]
    have hi : 0xFE - p.stackPages < l2Entries := by
      unfold l2Entries
      omega
    rcases h.mapPage (by decide : 31 < procVaMb) hpt hi (hfree _ (le_refl _) hlt) hidx with
      hpa | ⟨hne, hs, htable, hother, -⟩
    · rw [hpa]
      exact ⟨b, p, false, rfl, h, hpgd⟩
    · rw [hsp]
      generalize b.pageAlloc = r at *
      obtain ⟨b1, pa⟩ := r
      dsimp only at hne hs htable hother ⊢
      simp only [hne, if_false, Option.pure_def, Option.bind_some, if_true]
      refine ih ((htable 31).trans hpt) hpgd rfl (by dsimp only; omega) (fun m hm hm' => ?_) hs
      dsimp only at hm
      rw [hother pt _ (.inr (by unfold procStackInitPages at *; omega))]
      exact hfree m (by omega) hm'

theorem Space.setupInitialStack (hk : kpb < 4294967296) (hal : kpb % 1024 = 0) {p : Process}
    (hpgd : p.pgd = pgd)
    (hfree : ∀ i, initialStackFloor ≤ 31 * 0x100000 + i * pageSize → pageAt kpb b pgd 31 i = none)
    (h : Space kpb a b B pgd) : ∃ c q ok, setupInitialStack kpb b p = some (c, q, ok) ∧
      Space kpb a c B pgd ∧ q.pgd = pgd := by
  unfold Leg.setupInitialStack
  obtain ⟨c, pt, hc, hext, htable⟩ := h.getOrAlloc 0 hk hal (by decide : 31 < procVaMb)
  subst hpgd
  rw [show procStackTop >>> 20 = 31 from rfl, hc]
  simp only [Option.bind_eq_bind, Option.bind_some]
  by_cases hpt : pt = 0
  · rw [if_pos hpt]
    exact ⟨c, _, false, rfl, hext.space, rfl⟩
  · rw [if_neg hpt]
    refine hext.space.addStackPages (htable hpt) _ rfl rfl rfl fun m _ hm => ?_
    have hat := hext.kept 31 (by decide) (0xFE - m) (Nat.zero_le _)
    rw [hfree] at hat
    · simpa only [pageAt, htable hpt, Option.bind_some] using hat
    · unfold initialStackFloor procStackTop procStackInitPages pageSize at *
      omega

end Stack

section Copy
variable {kpb : ℕ} {a b : Vm} {B : List Client} {pgd pt mb : ℕ}

theorem l2Idx_fork {i : ℕ} (hi : i < l2Entries) : l2Idx (mb <<< 20 ||| i <<< 12) = i := by
  have hor := Nat.two_pow_add_eq_or_of_lt (i := 20) (b := i <<< 12)
    (by rw [Nat.shiftLeft_eq]; unfold l2Entries at hi; omega) mb
  rw [Nat.shiftLeft_eq mb, Nat.mul_comm, ← hor, l2Idx_eq, Nat.shiftLeft_eq]
  unfold pageSize l2Entries at *
  omega

/-- The copies of the pages from entry `i` on: the child's entries are still free. -/
theorem Space.forkPages (srcPt k i : ℕ) (hmb : mb < procVaMb) (hpt : tableOf kpb b pgd mb = some pt)
    (hend : i + k = l2Entries) (hfree : ∀ j, i ≤ j → pageOf b pt j = none)
    (h : Space kpb a b B pgd) : Space kpb a (forkPages mb srcPt pt k i b).1 B pgd ∧
      ∀ j, tableOf kpb (Leg.forkPages mb srcPt pt k i b).1 pgd j = tableOf kpb b pgd j := by
  induction k generalizing i b with
  | zero => exact ⟨h, fun _ => rfl⟩
  | succ k ih =>
    have hlater : ∀ j, i + 1 ≤ j → pageOf b pt j = none := fun j hj => hfree j (by omega)
    unfold Leg.forkPages
    split
    next => exact ih (i + 1) hpt (by omega) hlater h
    next =>
      have hi : i < l2Entries := by omega
      rcases h.mapPage hmb hpt hi (hfree i (le_refl _)) (l2Idx_fork hi) with
        hpa | ⟨hne, hs, htable, hother, -⟩
      · rw [hpa]
        exact ⟨h, fun _ => rfl⟩
      · generalize b.pageAlloc = r at *
        obtain ⟨b1, pa⟩ := r
        dsimp only at hne hs htable hother ⊢
        rw [if_neg hne]
        obtain ⟨hs', htable'⟩ := ih (i + 1) ((htable mb).trans hpt) (by omega)
          (fun j hj => (hother pt j (.inr (by omega))).trans (hlater j hj)) hs
        exact ⟨hs', fun j => (htable' j).trans (htable j)⟩

/-- The copies of the tables from slot `mb` on: the child's slots are still free. -/
theorem Space.forkTables (hk : kpb < 4294967296) (hal : kpb % 1024 = 0) (parentPgd k : ℕ)
    (hend : mb + k = procVaMb) (hfree : ∀ j, mb ≤ j → tableOf kpb b pgd j = none)
    (h : Space kpb a b B pgd) :
    ∃ c ok, forkTables kpb parentPgd pgd k mb b = some (c, ok) ∧ Space kpb a c B pgd := by
  induction k generalizing mb b with
  | zero => exact ⟨b, true, rfl, h⟩
  | succ k ih =>
    have hlater : ∀ j, mb + 1 ≤ j → tableOf kpb b pgd j = none := fun j hj => hfree j (by omega)
    unfold Leg.forkTables
    split
    next => exact ih (by omega) hlater h
    next =>
      have hmb : mb < procVaMb := by omega
      rcases h.newTable hk hal hmb (hfree mb (le_refl _)) with
        hr | ⟨b1, pt, hr, hpt, hs, htable, hother, hempty, -⟩
      · rw [hr]
        exact ⟨b, false, rfl, h⟩
      · rw [hr]
        simp only [Option.bind_eq_bind, Option.bind_some, hpt, if_false]
        obtain ⟨hs', htable'⟩ := hs.forkPages (physToVirt kpb (l1Address (b.l1 parentPgd mb)))
          l2Entries 0 hmb htable (by simp) fun j _ => hempty j
        generalize Leg.forkPages mb (physToVirt kpb (l1Address (b.l1 parentPgd mb))) pt l2Entries 0
          (b1.mmuAttachL2 kpb pgd mb pt) = r at *
        obtain ⟨b2, ok⟩ := r
        dsimp only at hs' htable' ⊢
        cases ok with
        | false => exact ⟨b2, false, rfl, hs'⟩
        | true =>
          refine ih (by omega) (fun j hj => ?_) hs'
          rw [htable', hother j (by omega)]
          exact hlater j hj

end Copy

end Leg

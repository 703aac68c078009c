import Leg.Process.TableWords

/-! The pages of a loaded image: where the load succeeds every page of each segment is mapped, and
what is mapped stays so while the rest of the space is built. -/
namespace Leg
open Slots

/-- Pages of `b` that are mapped stay mapped in `c` as they are. -/
def Stays (kpb : ℕ) (b c : Vm) (pgd : ℕ) : Prop :=
  ∀ j < procVaMb, ∀ i pa, pageAt kpb b pgd j i = some pa → pageAt kpb c pgd j i = some pa

/-- The page of an address is mapped. -/
def PageMapped (kpb : ℕ) (vm : Vm) (pgd va : ℕ) : Prop :=
  ∃ pa, pageAt kpb vm pgd (va >>> 20) (l2Idx va) = some pa

/-- From `b` to `c` no page has been mapped but those in `pages`, given by their numbers. -/
def MapsOnly (kpb : ℕ) (b c : Vm) (pgd : ℕ) (pages : ℕ → Prop) : Prop :=
  ∀ va < procUserVaTop, ¬ pages (va / pageSize) → PageMapped kpb c pgd va → PageMapped kpb b pgd va

section Order
variable {kpb : ℕ} {b c d : Vm} {pgd va : ℕ}

theorem MapsOnly.trans {pages pages' : ℕ → Prop} (h : MapsOnly kpb b c pgd pages)
    (h' : MapsOnly kpb c d pgd pages') : MapsOnly kpb b d pgd fun n => pages n ∨ pages' n :=
  fun va hva hno hd => h va hva (fun hp => hno (.inl hp)) (h' va hva (fun hp => hno (.inr hp)) hd)

theorem MapsOnly.mono {pages pages' : ℕ → Prop} (h : MapsOnly kpb b c pgd pages)
    (hsub : ∀ n, pages n → pages' n) : MapsOnly kpb b c pgd pages' :=
  fun va hva hno => h va hva fun hp => hno (hsub _ hp)

theorem MapsOnly.of_kept {pages : ℕ → Prop}
    (h : ∀ va < procUserVaTop, ¬ pages (va / pageSize) →
      pageAt kpb c pgd (va >>> 20) (l2Idx va) = pageAt kpb b pgd (va >>> 20) (l2Idx va)) :
    MapsOnly kpb b c pgd pages := by
  intro va hva hno ⟨pa, hpa⟩
  exact ⟨pa, (h va hva hno).symm.trans hpa⟩

theorem Stays.refl (b : Vm) : Stays kpb b b pgd := fun _ _ _ _ h => h

theorem Stays.trans (h : Stays kpb b c pgd) (h' : Stays kpb c d pgd) : Stays kpb b d pgd :=
  fun j hj i pa hpa => h' j hj i pa (h j hj i pa hpa)

theorem slot_lt (h : va < procUserVaTop) : va >>> 20 < procVaMb := by
  rw [Nat.shiftRight_eq_div_pow]
  unfold procVaMb procUserVaTop at *
  omega

theorem PageMapped.stays (h : PageMapped kpb b pgd va) (hva : va < procUserVaTop)
    (hstays : Stays kpb b c pgd) : PageMapped kpb c pgd va := by
  obtain ⟨pa, hpa⟩ := h
  exact ⟨pa, hstays _ (slot_lt hva) _ pa hpa⟩

theorem PageMapped.of_page {va' : ℕ} (h : PageMapped kpb b pgd va)
    (hpage : va' / pageSize = va / pageSize) : PageMapped kpb b pgd va' := by
  have hidx : l2Idx va' = l2Idx va := by rw [l2Idx_eq, l2Idx_eq, hpage]
  have hslot : va' >>> 20 = va >>> 20 := by
    rw [Nat.shiftRight_eq_div_pow, Nat.shiftRight_eq_div_pow]
    unfold pageSize at hpage
    omega
  unfold PageMapped
  rwa [hslot, hidx]

theorem page_of_slot {va' : ℕ} (hslot : va' >>> 20 = va >>> 20) (hidx : l2Idx va' = l2Idx va) :
    va' / pageSize = va / pageSize := by
  rw [Nat.shiftRight_eq_div_pow, Nat.shiftRight_eq_div_pow] at hslot
  rw [l2Idx_eq, l2Idx_eq] at hidx
  unfold pageSize l2Entries at *
  omega

theorem userAddr_isSome (hva : va < procUserVaTop) :
    (Leg.userAddr kpb b pgd va).isSome ↔ PageMapped kpb b pgd va := by
  unfold Leg.userAddr PageMapped
  rw [if_pos hva, Option.isSome_map, Option.isSome_iff_exists]

theorem PageMapped.userAddr (h : PageMapped kpb b pgd va) (hva : va < procUserVaTop) :
    ∃ x, Leg.userAddr kpb b pgd va = some x := by
  obtain ⟨pa, hpa⟩ := h
  refine ⟨pa + va % pageSize, ?_⟩
  unfold Leg.userAddr
  rw [if_pos hva, hpa]
  rfl

theorem Formed.entry {mb pt i : ℕ} (h : Formed kpb b pgd) (ht : tableOf kpb b pgd mb = some pt)
    (hne : entryType (b.l2 pt i) ≠ l2Invalid) : ∃ pa, pageAt kpb b pgd mb i = some pa := by
  unfold tableOf at ht
  split at ht
  next htype =>
    obtain rfl := Option.some.inj ht
    rcases h mb with h0 | ⟨-, hclean⟩
    · rw [h0] at htype
      exact absurd htype (by decide)
    · rcases hclean i with hw | ⟨pa, hw⟩
      · rw [hw] at hne
        exact absurd rfl hne
      · refine ⟨l2Address (l2PageEntry pa), ?_⟩
        simp only [pageAt, tableOf, htype, if_true, Option.bind_some, pageOf, hw,
          entryType_l2PageEntry]
  next => exact absurd ht (by simp)

/-- Two addresses of a space that lead to one byte are equal. -/
theorem userAddr_inj (hal : ∀ pa ∈ spacePages kpb b pgd, pa % pageSize = 0)
    (hnodup : (spacePages kpb b pgd).Nodup) (htables : (spaceTables kpb b pgd).Nodup) {va' x : ℕ}
    (h : Leg.userAddr kpb b pgd va = some x) (h' : Leg.userAddr kpb b pgd va' = some x) :
    va = va' := by
  obtain ⟨mb, hmb, i, hi, pa, hpa, hx, hslot, hidx⟩ := userAddr_some h
  obtain ⟨mb', hmb', i', hi', pa', hpa', hx', hslot', hidx'⟩ := userAddr_some h'
  have hmem : pa ∈ spacePages kpb b pgd := mem_spacePages.mpr ⟨mb, hmb, i, hi, hpa⟩
  have hmem' : pa' ∈ spacePages kpb b pgd := mem_spacePages.mpr ⟨mb', hmb', i', hi', hpa'⟩
  have hmod := hal pa hmem
  have hmod' := hal pa' hmem'
  have hpages : pa = pa' ∧ va % pageSize = va' % pageSize := by
    unfold pageSize at *
    omega
  obtain ⟨rfl, hoff⟩ := hpages
  obtain ⟨pt, hpt, hpage⟩ := Option.bind_eq_some_iff.mp hpa
  obtain ⟨pt', hpt', hpage'⟩ := Option.bind_eq_some_iff.mp hpa'
  -- one page is mapped at one entry of one table
  obtain rfl : pt = pt' := flatMap_inj hnodup (mem_spaceTables hmb hpt)
    (mem_spaceTables hmb' hpt') (mem_occupied.mpr ⟨i, hi, hpage⟩)
    (mem_occupied.mpr ⟨i', hi', hpage'⟩)
  have hrow : (tablePages b pt).Nodup :=
    (List.nodup_flatMap.mp hnodup).1 pt (mem_spaceTables hmb hpt)
  have hii : i = i' := occupied_inj hrow hi hi' hpage hpage'
  have hmm : mb = mb' := occupied_inj htables hmb hmb' hpt hpt'
  rw [l2Idx_eq] at hidx hidx'
  rw [Nat.shiftRight_eq_div_pow] at hslot hslot'
  unfold pageSize l2Entries at *
  omega

end Order

section Load
variable {kpb : ℕ} {a b c : Vm} {B : List Client} {pgd limit : ℕ}

/-- A space whose tables are all formed, beside the state before it. -/
structure FormedSpace (kpb : ℕ) (a b : Vm) (B : List Client) (pgd : ℕ) : Prop where
  space : Space kpb a b B pgd
  formed : Formed kpb b pgd

/-- `c` is `b` with more pages mapped. -/
structure GrowsSpace (kpb : ℕ) (a b c : Vm) (B : List Client) (pgd : ℕ) : Prop where
  now : FormedSpace kpb a c B pgd
  stays : Stays kpb b c pgd

theorem GrowsSpace.trans {d : Vm} (h : GrowsSpace kpb a b c B pgd)
    (h' : GrowsSpace kpb a c d B pgd) :
    GrowsSpace kpb a b d B pgd :=
  ⟨h'.now, h.stays.trans h'.stays⟩

/-- `map_pages` that succeeds has mapped all its pages. -/
theorem FormedSpace.mapPagesLoop (hk : kpb < 4294967296) (hal : kpb % 1024 = 0) {pageBase : ℕ}
    (hbase : pageBase % pageSize = 0) (k i : ℕ) (h : FormedSpace kpb a b B pgd)
    (htop : pageBase + (i + k) * pageSize ≤ procUserVaTop)
    (hrun : mapPagesLoop kpb pgd pageBase k i b = some (c, true)) :
    GrowsSpace kpb a b c B pgd ∧
      (∀ n, i ≤ n → n < i + k → PageMapped kpb c pgd (pageBase + n * pageSize)) ∧
      MapsOnly kpb b c pgd fun q => ∃ n, i ≤ n ∧ n < i + k ∧ q = pageBase / pageSize + n := by
  induction k generalizing i b with
  | zero =>
    obtain ⟨rfl, -⟩ := Prod.mk.inj (Option.some.inj hrun)
    exact ⟨⟨h, .refl b⟩, fun n hn hlt => absurd hlt (by omega), fun _ _ _ hm => hm⟩
  | succ k ih =>
    have hva : u32 (pageBase + u32 (i * pageSize)) = pageBase + i * pageSize := by
      unfold u32 pageSize procUserVaTop at *
      omega
    have hnext : pageBase + (i + 1 + k) * pageSize ≤ procUserVaTop := by
      rwa [show i + 1 + k = i + (k + 1) by omega]
    have hlow : pageBase + i * pageSize < procUserVaTop := by
      unfold pageSize at *
      omega
    simp only [Leg.mapPagesLoop, hva] at hrun
    -- the page of this round and those of the rounds that follow
    have hlater {e : Vm} (hmapped : PageMapped kpb e pgd (pageBase + i * pageSize))
        (hgrown : GrowsSpace kpb a b e B pgd)
        (honly : MapsOnly kpb b e pgd fun q => q = pageBase / pageSize + i)
        (he : Leg.mapPagesLoop kpb pgd pageBase k (i + 1) e = some (c, true)) :
        GrowsSpace kpb a b c B pgd ∧
          (∀ n, i ≤ n → n < i + (k + 1) → PageMapped kpb c pgd (pageBase + n * pageSize)) ∧
          MapsOnly kpb b c pgd fun q => ∃ n, i ≤ n ∧ n < i + (k + 1) ∧
            q = pageBase / pageSize + n := by
      obtain ⟨hgrows, hpages, hrest⟩ := ih (i + 1) hgrown.now hnext he
      refine ⟨hgrown.trans hgrows, fun n hn hlt => ?_, (honly.trans hrest).mono fun q hq => ?_⟩
      · rcases Nat.eq_or_lt_of_le hn with rfl | hn
        · exact hmapped.stays hlow hgrows.stays
        · exact hpages n hn (by omega)
      · rcases hq with rfl | ⟨n, hn, hlt, rfl⟩
        · exact ⟨i, by omega, by omega, rfl⟩
        · exact ⟨n, by omega, by omega, rfl⟩
    have hnumber : (pageBase + i * pageSize) / pageSize = pageBase / pageSize + i :=
      Nat.add_mul_div_right _ _ (by decide)
    generalize hpage : pageBase + i * pageSize = va at *
    have hmb : va >>> 20 < procVaMb := slot_lt hlow
    obtain ⟨b1, pt, hr, hext, htable⟩ := h.space.getOrAlloc 0 hk hal hmb
    obtain ⟨hkeeps, -⟩ := getOrAllocL2_keeps hk hal h.space.ok hr
    have hformed := hkeeps.formed h.formed
    have hstays : Stays kpb b b1 pgd := fun j hj i' pa hpa =>
      (hext.kept j hj i' (Nat.zero_le _)).trans hpa
    rw [hr] at hrun
    simp only [Option.bind_eq_bind, Option.bind_some] at hrun
    split at hrun
    next => exact absurd hrun (by simp)
    next hpt =>
    split at hrun
    next hmapped =>
      obtain ⟨pa, hpa⟩ := hformed.entry (htable hpt) hmapped
      exact hlater ⟨pa, hpa⟩ ⟨⟨hext.space, hformed⟩, hstays⟩
        (.of_kept fun va' hva' _ => hext.kept _ (slot_lt hva') _ (Nat.zero_le _))
        (by simpa using hrun)
    next hempty =>
    have hi : l2Idx va < l2Entries := by
      rw [l2Idx_eq]
      exact Nat.mod_lt _ (by decide)
    have hnone : pageOf b1 pt (l2Idx va) = none := by
      unfold pageOf
      rw [not_not.mp hempty]
      rfl
    rcases hext.space.mapPage hmb (htable hpt) hi hnone rfl with hpa | ⟨hne, hs, -, -, hkept⟩
    · rw [hpa] at hrun
      simp at hrun
    · have hmod : b1.pageAlloc.2 % pageSize = 0 := by
        rcases Holds.pageAlloc hext.space with hfull | ⟨-, hmod, -⟩
        · exact absurd (congrArg Prod.snd hfull) hne
        · exact hmod
      have hpa := pageAt_mmuMapPage (b := b1.pageAlloc.1) (htable hpt)
        (rfl : l2Idx va = l2Idx va) hmod
      have hkeeps' := (mapPage_keeps kpb hext.space.ok pt va).1
      rw [if_neg hne] at hrun
      refine hlater ⟨_, hpa⟩ ⟨⟨hs, hkeeps'.formed hformed⟩, fun j hj i' pa' hpa' => ?_⟩
        (.of_kept fun va' hva' hother => ?_) hrun
      swap
      · rw [hkept _ (slot_lt hva') _ ?_, hext.kept _ (slot_lt hva') _ (Nat.zero_le _)]
        by_contra hsame
        exact hother ((page_of_slot (by omega) (by omega)).trans hnumber)
      have hold := hstays j hj i' pa' hpa'
      by_cases hsame : j = va >>> 20 ∧ i' = l2Idx va
      · obtain ⟨rfl, rfl⟩ := hsame
        rw [pageAt, htable hpt, Option.bind_some, hnone] at hold
        exact absurd hold (by simp)
      · rw [hkept j hj i' (by omega)]
        exact hold

/-- The page of this number has bytes below `va + memsz`, and some from `va` on. -/
def TouchedBy (va memsz q : ℕ) : Prop := q * pageSize < va + memsz ∧ va < (q + 1) * pageSize

/-- The pages of one segment. -/
theorem FormedSpace.mapPages (hk : kpb < 4294967296) (hal : kpb % 1024 = 0) {va memsz : ℕ}
    (h : FormedSpace kpb a b B pgd) (hend : va + memsz ≤ procUserVaTop)
    (hrun : mapPages kpb pgd va memsz b = some (c, true)) :
    GrowsSpace kpb a b c B pgd ∧ (∀ n < memsz, PageMapped kpb c pgd (va + n)) ∧
      MapsOnly kpb b c pgd (TouchedBy va memsz) := by
  have hva : va < 4294967296 := by
    unfold procUserVaTop at hend
    omega
  have hbase : va &&& bnot (pageSize - 1) = va / pageSize * pageSize := alignDown_page hva
  unfold Leg.mapPages at hrun
  simp only [hbase, wsub_of_le (Nat.div_mul_le_self va pageSize) hva] at hrun
  have hcount : u32 (va - va / pageSize * pageSize + memsz + pageSize - 1) / pageSize =
      (va % pageSize + memsz + pageSize - 1) / pageSize := by
    unfold u32 pageSize procUserVaTop at *
    omega
  rw [hcount] at hrun
  obtain ⟨hgrows, hpages, honly⟩ := h.mapPagesLoop hk hal (Nat.mul_mod_left _ _) _ 0
    (by unfold pageSize procUserVaTop at *; omega) hrun
  refine ⟨hgrows, fun n hn => ?_, honly.mono fun q hq => ?_⟩
  · have hpage := hpages ((va % pageSize + n) / pageSize) (Nat.zero_le _)
      (by unfold pageSize; omega)
    refine hpage.of_page ?_
    unfold pageSize
    omega
  · obtain ⟨n, -, hn, rfl⟩ := hq
    unfold TouchedBy pageSize at *
    omega

theorem FormedSpace.mapSegments (hk : kpb < 4294967296) (hal : kpb % 1024 = 0)
    {phs : List LlfPhdr}
    (hphs : ∀ ph ∈ phs, ph.type ≠ llfSegNull → ph.vaddr + ph.memsz ≤ procUserVaTop)
    (h : FormedSpace kpb a b B pgd) (hrun : mapSegments kpb pgd phs b = some (c, true)) :
    GrowsSpace kpb a b c B pgd ∧
      (∀ ph ∈ phs, ph.type ≠ llfSegNull → ∀ n < ph.memsz,
        PageMapped kpb c pgd (ph.vaddr + n)) ∧
      MapsOnly kpb b c pgd fun q =>
        ∃ ph ∈ phs, ph.type ≠ llfSegNull ∧ TouchedBy ph.vaddr ph.memsz q := by
  induction phs generalizing b with
  | nil =>
    obtain ⟨rfl, -⟩ := Prod.mk.inj (Option.some.inj hrun)
    exact ⟨⟨h, .refl b⟩, fun ph hph => absurd hph (by simp), fun _ _ _ hm => hm⟩
  | cons ph phs ih =>
    have hrest := fun q hq => hphs q (List.mem_cons_of_mem ph hq)
    unfold Leg.mapSegments at hrun
    split at hrun
    next hnull =>
      obtain ⟨hgrows, hpages, honly⟩ := ih hrest h hrun
      refine ⟨hgrows, fun q hq hne => ?_, honly.mono fun _ ht => ?_⟩
      swap
      · obtain ⟨q, hq, ht⟩ := ht
        exact ⟨q, List.mem_cons_of_mem ph hq, ht⟩
      rcases List.mem_cons.mp hq with rfl | hq
      · exact absurd hnull hne
      · exact hpages q hq hne
    next hnull =>
      have hend := hphs ph (List.mem_cons_self ..) hnull
      obtain ⟨⟨b1, ok⟩, hmap, hrun⟩ := Option.bind_eq_some_iff.mp hrun
      dsimp only at hrun
      split at hrun
      next hok =>
        rw [hok] at hmap
        obtain ⟨hgrows, hpages, honly⟩ := h.mapPages hk hal hend hmap
        obtain ⟨hgrows', hpages', honly'⟩ := ih hrest hgrows.now hrun
        refine ⟨hgrows.trans hgrows', fun q hq hne n hn => ?_,
          (honly.trans honly').mono fun _ hq => ?_⟩
        · rcases List.mem_cons.mp hq with rfl | hq
          · exact (hpages n hn).stays (by omega) hgrows'.stays
          · exact hpages' q hq hne n hn
        · rcases hq with hq | ⟨q, hq, ht⟩
          · exact ⟨ph, List.mem_cons_self .., hnull, hq⟩
          · exact ⟨q, List.mem_cons_of_mem ph hq, ht⟩
      next => exact absurd hrun (by simp)

end Load

section Stack
variable {kpb : ℕ} {b c : Vm} {pgd : ℕ}

/-- The entries that `setup_initial_stack` maps. -/
def stackIdx (n : ℕ) : ℕ := 0xFE - n

/-- The initial stack pages, from the present one on, go to entries of their table. -/
theorem addStackPages_frame (k : ℕ) {p q : Process} {ok : Bool}
    (hn : p.stackPages + k = procStackInitPages)
    (h : addStackPages kpb k b p = some (c, q, ok)) :
    c.l1 = b.l1 ∧ ∀ pt i, (pt = p.stackPt → ∀ n, p.stackPages ≤ n → n < procStackInitPages →
      i ≠ stackIdx n) → c.l2 pt i = b.l2 pt i := by
  induction k generalizing b p with
  | zero =>
    obtain ⟨rfl, -⟩ := Prod.mk.inj (Option.some.inj h)
    exact ⟨rfl, fun _ _ _ => rfl⟩
  | succ k ih =>
    obtain ⟨-, hidx, hcross⟩ := stackPage_va (n := p.stackPages) (by omega)
    obtain ⟨⟨e, r, okr⟩, hadd, h⟩ := Option.bind_eq_some_iff.mp h
    unfold processAddPage at hadd
    simp only [Option.bind_eq_bind, hcross, if_false, Option.bind_some, not_true] at hadd
    split at hadd
    next =>
      obtain ⟨rfl, rfl, rfl⟩ : b.pageAlloc.1 = e ∧ p = r ∧ false = okr := by simpa using hadd
      obtain ⟨rfl, -⟩ : b.pageAlloc.1 = c ∧ _ := by simpa using h
      exact ⟨rfl, fun _ _ _ => rfl⟩
    next =>
      obtain ⟨rfl, rfl, rfl⟩ : _ = e ∧ _ = r ∧ true = okr := by simpa using hadd
      obtain ⟨h1, h2⟩ := ih (by dsimp only; omega) h
      refine ⟨h1, fun pt i hi => (h2 pt i fun heq n hle => hi heq n ?_).trans ?_⟩
      · dsimp only at hle
        omega
      unfold Vm.mmuMapPage Vm.setL2
      rw [hidx]
      dsimp only
      by_cases hpt : pt = p.stackPt
      · have hne := hi hpt p.stackPages (le_refl _) (by omega)
        subst hpt
        rw [Function.update_self, show 0xFE - p.stackPages = stackIdx p.stackPages from rfl,
          Function.update_of_ne hne]
        rfl
      · rw [Function.update_of_ne hpt]
        rfl

/-- Where they are all mapped. -/
theorem addStackPages_mapped (k : ℕ) (hok : VmOk b) {pt : ℕ}
    (hpt : tableOf kpb b pgd 31 = some pt) {p q : Process} (hsp : p.stackPt = pt)
    (hn : p.stackPages + k = procStackInitPages)
    (h : addStackPages kpb k b p = some (c, q, true)) {n : ℕ} (hle : p.stackPages ≤ n)
    (hlt : n < procStackInitPages) : ∃ pa, pageAt kpb c pgd 31 (stackIdx n) = some pa := by
  induction k generalizing b p with
  | zero => omega
  | succ k ih =>
    obtain ⟨⟨e, r, ok⟩, hadd, h⟩ := Option.bind_eq_some_iff.mp h
    cases ok with
    | false => exact absurd h (by simp)
    | true =>
      obtain ⟨hok', hpt', hsp', hn', -, pa, hpa, -⟩ :=
        processAddPage_new hok hpt hsp (by omega) hadd
      rcases Nat.eq_or_lt_of_le hle with rfl | hlater
      · -- the pages that follow go to other entries
        obtain ⟨h1, h2⟩ := addStackPages_frame k (by omega) h
        refine ⟨pa, ?_⟩
        rw [← hpa]
        unfold pageAt
        rw [tableOf_congr (b := c) (a := e) (by rw [h1]), hpt', Option.bind_some, Option.bind_some]
        unfold pageOf
        rw [show (0xFE : ℕ) - p.stackPages = stackIdx p.stackPages from rfl, h2 pt _ ?_]
        intro _ j hj hj'
        unfold stackIdx procStackInitPages at *
        omega
      · exact ih hok' hpt' hsp' (by omega) h (by omega)

/-- The addresses of the initial stack. -/
def InInitialStack (va : ℕ) : Prop := initialStackFloor ≤ va ∧ va < procStackTop

theorem stack_slot {va : ℕ} (hva : va < procUserVaTop) : InInitialStack va ↔
    va >>> 20 = 31 ∧ ∃ n < procStackInitPages, l2Idx va = stackIdx n := by
  rw [Nat.shiftRight_eq_div_pow, l2Idx_eq]
  unfold InInitialStack stackIdx initialStackFloor procStackTop procStackInitPages pageSize
    l2Entries procUserVaTop at *
  constructor
  · intro h
    exact ⟨by omega, 0xFE - va / 0x1000 % 256, by omega, by omega⟩
  · rintro ⟨hslot, n, hn, hidx⟩
    omega

/-- `setup_initial_stack` changes nothing outside the initial stack, and where it succeeds maps all
of it. -/
theorem Space.setupInitialStack_maps (hk : kpb < 4294967296) (hal : kpb % 1024 = 0) {a : Vm}
    {B : List Client} {p q : Process} {ok : Bool} (hpgd : p.pgd = pgd) (hs : Space kpb a b B pgd)
    (h : Leg.setupInitialStack kpb b p = some (c, q, ok)) {va : ℕ} (hva : va < procUserVaTop) :
    (¬ InInitialStack va → userAddr kpb c pgd va = userAddr kpb b pgd va) ∧
      (ok = true → InInitialStack va → PageMapped kpb c pgd va) := by
  obtain ⟨e, pt, he, hext, htable⟩ := hs.getOrAlloc 0 hk hal (by decide : 31 < procVaMb)
  subst hpgd
  have hslot := slot_lt hva
  have hfirst : pageAt kpb e p.pgd (va >>> 20) (l2Idx va) =
      pageAt kpb b p.pgd (va >>> 20) (l2Idx va) := hext.kept _ hslot _ (Nat.zero_le _)
  have haddr {d : Vm} (hd : pageAt kpb d p.pgd (va >>> 20) (l2Idx va) =
      pageAt kpb b p.pgd (va >>> 20) (l2Idx va)) :
      userAddr kpb d p.pgd va = userAddr kpb b p.pgd va := by
    unfold userAddr
    rw [if_pos hva, if_pos hva, hd]
  unfold Leg.setupInitialStack at h
  rw [show procStackTop >>> 20 = 31 from rfl, he] at h
  simp only [Option.bind_eq_bind, Option.bind_some] at h
  split at h
  next =>
    obtain ⟨rfl, -, rfl⟩ : e = c ∧ _ ∧ false = ok := by simpa using h
    exact ⟨fun _ => haddr hfirst, fun hok => absurd hok (by decide)⟩
  next hpt =>
    refine ⟨fun hout => haddr ?_, fun hok hin => ?_⟩
    · obtain ⟨h1, h2⟩ := addStackPages_frame _ rfl h
      rw [← hfirst]
      unfold pageAt
      rw [tableOf_congr (b := c) (a := e) (by rw [h1])]
      cases ht : tableOf kpb e p.pgd (va >>> 20) with
      | none => rfl
      | some pt' =>
        rw [Option.bind_some, Option.bind_some]
        unfold pageOf
        rw [h2]
        intro heq n _ hn hidx
        have hsame : va >>> 20 = 31 := occupied_inj hext.space.tables_nodup hslot (by decide) ht
          (heq ▸ htable hpt)
        exact hout ((stack_slot hva).mpr ⟨hsame, n, hn, hidx⟩)
    · subst hok
      obtain ⟨hsame, n, hn, hidx⟩ := (stack_slot hva).mp hin
      obtain ⟨pa, hpa⟩ := addStackPages_mapped _ hext.space.ok (htable hpt) rfl rfl h
        (Nat.zero_le n) hn
      exact ⟨pa, by rw [hsame, hidx, hpa]⟩

end Stack

end Leg

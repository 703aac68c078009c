import Leg.Process.ExecAtomic
import Leg.Process.ForkMemory

/-! A fork's child has its parent's pages in copies of its own: the invariant of the two copying
loops, and that neither process sees what the other one writes. -/
namespace Leg
open Runs Slots

/-- Two entries are both empty, or map pages with the same bytes in two memories. -/
def SamePage (m₀ m : Memory) : Option ℕ → Option ℕ → Prop
  | none, none => True
  | some p, some q => ∀ o < pageSize, m (q + o) = m₀ (p + o)
  | _, _ => False

theorem SamePage.mono {m₀ m m' : Memory} {x y : Option ℕ} (h : SamePage m₀ m x y)
    (hm : ∀ q, y = some q → ∀ o < pageSize, m' (q + o) = m (q + o)) : SamePage m₀ m' x y := by
  cases x with
  | none =>
    cases y with
    | none => trivial
    | some q => exact h
  | some p =>
    cases y with
    | none => exact h
    | some q => exact fun o ho => (hm q rfl o ho).trans (h o ho)

/-- The parent's tables and pages are held in the state `a`, and the kernel reaches all pages of
the allocator. -/
structure SourceOk (c : BootConfig) (f : FoundTables) (a : Vm) (parent : ℕ) : Prop where
  ok : VmOk a
  blocks : ∀ d ∈ spaceBlocks c.kernelPhysBase a parent, d ∈ a.live
  pages : ∀ j < procVaMb, ∀ k < l2Entries, ∀ pa, pageAt c.kernelPhysBase a parent j k = some pa →
    mmPageIsAllocated a.pmm pa = true
  reach : ∀ pa, paAligned pa → a.pmm.paInRange pa → c.Reaches f pa

/-- The state of the copying loops: of the entries, counted through all slots, the first `n` are
copied and the others are empty, and the pages held in `a` are as they were. -/
structure CopiedTo (kpb : ℕ) (a b : Vm) (m₀ m : Memory) (B : List Client) (parent child n : ℕ) :
    Prop where
  space : Space kpb a b B child
  done : ∀ j < procVaMb, ∀ k < l2Entries, j * l2Entries + k < n →
    SamePage m₀ m (pageAt kpb a parent j k) (pageAt kpb b child j k)
  todo : ∀ j < procVaMb, ∀ k < l2Entries, n ≤ j * l2Entries + k → pageAt kpb b child j k = none
  kept : ∀ pa, mmPageIsAllocated a.pmm pa = true → ∀ o < pageSize, m (pa + o) = m₀ (pa + o)

section Pages
variable {kpb : ℕ} {a b : Vm} {B : List Client} {P : List ℕ}

theorem page_bytes_ne {p q o o' : ℕ} (hp : p % pageSize = 0) (hq : q % pageSize = 0)
    (hne : p ≠ q) (ho : o < pageSize) (ho' : o' < pageSize) : p + o ≠ q + o' := by
  unfold pageSize at *
  omega

theorem allocated_page {g : Pmm} (h : PmmOk g) {pa : ℕ} (hpa : mmPageIsAllocated g pa = true) :
    pa % pageSize = 0 ∧ paAligned pa ∧ g.paInRange pa := by
  obtain ⟨i, hi, rfl, -⟩ := (mmPageIsAllocated_iff h pa).mp hpa
  have hal := h.base_aligned
  have hend := h.ramEnd
  have hmod : (g.ramBase + i * pageSize) % pageSize = 0 := by
    unfold pageSize at *
    omega
  refine ⟨hmod, (paAligned_iff _).mpr hmod, by omega, ?_⟩
  unfold pageSize at *
  omega

theorem Holds.fresh_page (ha : PmmOk a.pmm) (h : Holds a b B P) {pa : ℕ} (hpa : pa ∈ P) :
    pa % pageSize = 0 ∧ paAligned pa ∧ a.pmm.paInRange pa ∧
      mmPageIsAllocated a.pmm pa = false := by
  obtain ⟨i, hi, rfl, hclear⟩ := h.fresh pa hpa
  have hal := ha.base_aligned
  have hend := ha.ramEnd
  have hmod : (a.pmm.ramBase + i * pageSize) % pageSize = 0 := by
    unfold pageSize at *
    omega
  refine ⟨hmod, (paAligned_iff _).mpr hmod, ⟨by omega, by unfold pageSize at *; omega⟩, ?_⟩
  rw [← Bool.not_eq_true, mmPageIsAllocated_iff ha]
  rintro ⟨j, -, heq, hset⟩
  have hij : i = j := by
    unfold pageSize at heq
    omega
  rw [← hij, hclear] at hset
  exact absurd hset (by decide)

theorem Holds.pageAt_kept (h : Holds a b B P) {pgd : ℕ}
    (hlive : ∀ d ∈ spaceBlocks kpb a pgd, d ∈ a.live) {j : ℕ} (hj : j < procVaMb) (k : ℕ) :
    pageAt kpb b pgd j k = pageAt kpb a pgd j k := by
  have h1 : b.l1 pgd = a.l1 pgd := h.l1 _ (hlive ⟨pgd, procTableSize⟩ (List.mem_cons_self ..))
  unfold pageAt
  rw [tableOf_congr h1]
  cases ht : tableOf kpb a pgd j with
  | none => rfl
  | some pt =>
    have h2 : b.l2 pt = a.l2 pt := h.l2 _ (hlive (tableBlock pt)
      (List.mem_cons_of_mem _ (List.mem_map_of_mem (mem_spaceTables hj ht))))
    simp only [Option.bind_some, pageOf, h2]

theorem pageAt_mmuMapPage {pgd pt mb i va pa : ℕ} (ht : tableOf kpb b pgd mb = some pt)
    (hidx : l2Idx va = i) (hal : pa % pageSize = 0) :
    pageAt kpb (b.mmuMapPage pt va pa) pgd mb i = some pa := by
  have ht' : tableOf kpb (b.mmuMapPage pt va pa) pgd mb = some pt := ht
  subst hidx
  unfold pageAt
  rw [ht', Option.bind_some]
  simp [pageOf, Vm.mmuMapPage, Vm.setL2, entryType_l2PageEntry, l2Address_l2PageEntry hal]

end Pages

section Loops
variable {c : BootConfig} {f : FoundTables} {a b : Vm} {m₀ m : Memory} {B : List Client}
  {parent child pt mb i n : ℕ}

theorem kernelMemcpy_page {dst src : ℕ} (hdst : c.Reaches f dst) (hsrc : c.Reaches f src)
    (hd : dst % pageSize = 0) (hs : src % pageSize = 0) (hne : dst ≠ src) :
    kernelMemcpy (c.kernelWalk f) (physToVirt c.kernelPhysBase dst)
      (physToVirt c.kernelPhysBase src) pageSize m = some (m.copy dst src pageSize) := by
  have hva : physToVirt c.kernelPhysBase dst ≠ physToVirt c.kernelPhysBase src := by
    intro heq
    have hback := hdst.back
    rw [heq, hsrc.back] at hback
    exact hne hback.symm
  unfold kernelMemcpy
  rw [if_neg hva]
  refine kernelCopyLoop_eq pageSize hdst.mapped hsrc.mapped ?_
  unfold pageSize at *
  omega

theorem copy_page_new (m : Memory) (dst src : ℕ) {o : ℕ} (ho : o < pageSize) :
    m.copy dst src pageSize (dst + o) = m (src + o) := Memory.put_get m dst _ ho

theorem copy_page_other (m : Memory) {dst p : ℕ} (src : ℕ) {o : ℕ} (hd : dst % pageSize = 0)
    (hp : p % pageSize = 0) (hne : p ≠ dst) (ho : o < pageSize) :
    m.copy dst src pageSize (p + o) = m (p + o) := by
  unfold Memory.copy Memory.put
  rw [if_neg]
  unfold pageSize at *
  omega

theorem CopiedTo.congr {d : Vm} (h : CopiedTo c.kernelPhysBase a b m₀ m B parent child n)
    (hs : Space c.kernelPhysBase a d B child) (hat : ∀ j < procVaMb, ∀ k,
      pageAt c.kernelPhysBase d child j k = pageAt c.kernelPhysBase b child j k) :
    CopiedTo c.kernelPhysBase a d m₀ m B parent child n :=
  ⟨hs, fun j hj k hk hn => by rw [hat j hj]; exact h.done j hj k hk hn,
    fun j hj k hk hn => by rw [hat j hj]; exact h.todo j hj k hk hn, h.kept⟩

theorem CopiedTo.skip (h : CopiedTo c.kernelPhysBase a b m₀ m B parent child n) {n' : ℕ}
    (hle : n ≤ n') (hnone : ∀ j < procVaMb, ∀ k < l2Entries, n ≤ j * l2Entries + k →
      j * l2Entries + k < n' → pageAt c.kernelPhysBase a parent j k = none) :
    CopiedTo c.kernelPhysBase a b m₀ m B parent child n' := by
  refine ⟨h.space, fun j hj k hk hn => ?_, fun j hj k hk hn => h.todo j hj k hk (by omega), h.kept⟩
  by_cases hlt : j * l2Entries + k < n
  · exact h.done j hj k hk hlt
  · rw [hnone j hj k hk (by omega) hn, h.todo j hj k hk (by omega)]
    trivial

/-- One page of the parent is copied to a new page of the child. -/
theorem CopiedTo.page (hsrc : SourceOk c f a parent)
    (h : CopiedTo c.kernelPhysBase a b m₀ m B parent child (mb * l2Entries + i))
    (hmb : mb < procVaMb) (hi : i < l2Entries)
    (hpt : tableOf c.kernelPhysBase b child mb = some pt) {p : ℕ}
    (hp : pageAt c.kernelPhysBase a parent mb i = some p) :
    b.pageAlloc = (b, 0) ∨ ∃ m', b.pageAlloc.2 ≠ 0 ∧
      kernelMemcpy (c.kernelWalk f) (physToVirt c.kernelPhysBase b.pageAlloc.2)
        (physToVirt c.kernelPhysBase p) pageSize m = some m' ∧
      CopiedTo c.kernelPhysBase a
        (b.pageAlloc.1.mmuMapPage pt (mb <<< 20 ||| i <<< 12) b.pageAlloc.2) m₀ m' B parent child
        (mb * l2Entries + (i + 1)) ∧
      ∀ j, tableOf c.kernelPhysBase
        (b.pageAlloc.1.mmuMapPage pt (mb <<< 20 ||| i <<< 12) b.pageAlloc.2) child j =
          tableOf c.kernelPhysBase b child j := by
  have hempty : pageOf b pt i = none := by
    have := h.todo mb hmb i hi (le_refl _)
    rwa [pageAt, hpt] at this
  rcases h.space.mapPage hmb hpt hi hempty (l2Idx_fork hi) with
    hnone | ⟨hne, hspace, htable, -, hother⟩
  · exact .inl hnone
  right
  have hheld : b.pageAlloc.2 % pageSize = 0 ∧ paAligned b.pageAlloc.2 ∧
      a.pmm.paInRange b.pageAlloc.2 ∧ mmPageIsAllocated a.pmm b.pageAlloc.2 = false ∧
      b.pageAlloc.2 ∉ spacePages c.kernelPhysBase b child := by
    rcases Holds.pageAlloc h.space with hnone | ⟨-, -, -, hb⟩
    · exact absurd (by rw [hnone]) hne
    · obtain ⟨h1, h2, h3, h4⟩ := hb.fresh_page hsrc.ok.pmm (List.mem_cons_self ..)
      exact ⟨h1, h2, h3, h4, (List.nodup_cons.mp hb.nodup).1⟩
  have hnew : pageAt c.kernelPhysBase
      (b.pageAlloc.1.mmuMapPage pt (mb <<< 20 ||| i <<< 12) b.pageAlloc.2) child mb i =
        some b.pageAlloc.2 :=
    pageAt_mmuMapPage (b := b.pageAlloc.1) hpt (l2Idx_fork hi) hheld.1
  generalize b.pageAlloc.1.mmuMapPage pt (mb <<< 20 ||| i <<< 12) b.pageAlloc.2 = d at *
  generalize b.pageAlloc.2 = pa at *
  obtain ⟨hmod, hal, hin, hclear, hout⟩ := hheld
  have hpset := hsrc.pages mb hmb i hi p hp
  obtain ⟨hpmod, hpal, hpin⟩ := allocated_page hsrc.ok.pmm hpset
  have hpne : pa ≠ p := by
    rintro rfl
    rw [hpset] at hclear
    exact absurd hclear (by decide)
  have hcopy := kernelMemcpy_page (m := m) (hsrc.reach pa hal hin) (hsrc.reach p hpal hpin) hmod
    hpmod hpne
  refine ⟨_, hne, hcopy, ⟨hspace, fun j hj k hk hn => ?_, fun j hj k hk hn => ?_,
    fun q hq o ho => ?_⟩, htable⟩
  · by_cases hjk : j = mb ∧ k = i
    · obtain ⟨rfl, rfl⟩ := hjk
      rw [hp, hnew]
      intro o ho
      rw [copy_page_new m pa p ho]
      exact h.kept p hpset o ho
    · have hlt : j * l2Entries + k < mb * l2Entries + i := by
        unfold l2Entries at *
        omega
      rw [hother j hj k (not_and_or.mp hjk)]
      refine (h.done j hj k hk hlt).mono fun q hq o ho => ?_
      have hmem : q ∈ spacePages c.kernelPhysBase b child := mem_spacePages.mpr ⟨j, hj, k, hk, hq⟩
      have hqmod := (Holds.fresh_page hsrc.ok.pmm h.space hmem).1
      have hqne : q ≠ pa := fun heq => hout (heq ▸ hmem)
      exact copy_page_other m p hmod hqmod hqne ho
  · rw [hother j hj k (by unfold l2Entries at *; omega)]
    exact h.todo j hj k hk (by omega)
  · have hqne : q ≠ pa := by
      rintro rfl
      rw [hq] at hclear
      exact absurd hclear (by decide)
    rw [copy_page_other m p hmod (allocated_page hsrc.ok.pmm hq).1 hqne ho]
    exact h.kept q hq o ho

/-- The inner loop from entry `i` on. -/
theorem CopiedTo.pages {srcPt : ℕ} (hsrc : SourceOk c f a parent) (k : ℕ)
    (h : CopiedTo c.kernelPhysBase a b m₀ m B parent child (mb * l2Entries + i))
    (hmb : mb < procVaMb) (hend : i + k = l2Entries)
    (hpt : tableOf c.kernelPhysBase b child mb = some pt)
    (hsrcPt : tableOf c.kernelPhysBase a parent mb = some srcPt) :
    ∃ d m' ok, forkPagesMem c.kernelPhysBase (c.kernelWalk f) mb srcPt pt k i b m =
        some (d, m', ok) ∧ Space c.kernelPhysBase a d B child ∧
      (∀ j, tableOf c.kernelPhysBase d child j = tableOf c.kernelPhysBase b child j) ∧
      (ok = true →
        CopiedTo c.kernelPhysBase a d m₀ m' B parent child ((mb + 1) * l2Entries)) := by
  induction k generalizing i b m with
  | zero =>
    obtain rfl : i = l2Entries := by omega
    refine ⟨b, m, true, rfl, h.space, fun _ => rfl, fun _ => ?_⟩
    rw [Nat.add_one_mul]
    exact h
  | succ k ih =>
    have hi : i < l2Entries := by omega
    have hwords : b.l2 srcPt = a.l2 srcPt := h.space.l2 _ (hsrc.blocks (tableBlock srcPt)
      (List.mem_cons_of_mem _ (List.mem_map_of_mem (mem_spaceTables hmb hsrcPt))))
    have hentry : pageAt c.kernelPhysBase a parent mb i = pageOf b srcPt i := by
      simp only [pageAt, hsrcPt, Option.bind_some, pageOf, hwords]
    unfold forkPagesMem
    split
    next hno =>
      refine ih (i := i + 1) (h.skip (by omega) fun j hj l hl h1 h2 => ?_) (by omega) hpt
      obtain ⟨rfl, rfl⟩ : j = mb ∧ l = i := by
        unfold l2Entries at *
        omega
      rw [hentry, pageOf, if_neg hno]
    next hyes =>
      rw [not_not] at hyes
      have hp : pageAt c.kernelPhysBase a parent mb i = some (l2Address (b.l2 srcPt i)) := by
        rw [hentry, pageOf, if_pos hyes]
      rcases h.page hsrc hmb hi hpt hp with hnone | ⟨m', hne, hcopy, hnext, htable⟩
      · rw [hnone]
        exact ⟨b, m, false, rfl, h.space, fun _ => rfl, fun hf => absurd hf (by simp)⟩
      · dsimp only
        rw [if_neg hne, hcopy]
        obtain ⟨d, m'', ok, hd, hs, ht, hok⟩ := ih (i := i + 1) hnext (by omega)
          ((htable mb).trans hpt)
        exact ⟨d, m'', ok, hd, hs, fun j => (ht j).trans (htable j), hok⟩

/-- The outer loop from slot `mb` on. -/
theorem CopiedTo.tables (hsrc : SourceOk c f a parent) (k : ℕ)
    (h : CopiedTo c.kernelPhysBase a b m₀ m B parent child (mb * l2Entries))
    (hend : mb + k = procVaMb)
    (hfree : ∀ j, mb ≤ j → tableOf c.kernelPhysBase b child j = none) :
    ∃ d m' ok, forkTablesMem c.kernelPhysBase (c.kernelWalk f) parent child k mb b m =
        some (d, m', ok) ∧ Space c.kernelPhysBase a d B child ∧
      (ok = true →
        CopiedTo c.kernelPhysBase a d m₀ m' B parent child (procVaMb * l2Entries)) := by
  obtain ⟨hk, hal⟩ := c.kernelPhysBase_bounds
  induction k generalizing mb b m with
  | zero =>
    rw [Nat.add_zero] at hend
    exact ⟨b, m, true, rfl, h.space, fun _ => hend ▸ h⟩
  | succ k ih =>
    have hmb : mb < procVaMb := by omega
    have hwords : b.l1 parent = a.l1 parent :=
      h.space.l1 _ (hsrc.blocks ⟨parent, procTableSize⟩ (List.mem_cons_self ..))
    have hlater : ∀ j, mb + 1 ≤ j → tableOf c.kernelPhysBase b child j = none := fun j hj =>
      hfree j (by omega)
    unfold forkTablesMem
    split
    next hno =>
      have hskip : CopiedTo c.kernelPhysBase a b m₀ m B parent child ((mb + 1) * l2Entries) :=
        h.skip (by rw [Nat.add_one_mul]; omega) fun j hj l hl h1 h2 => ?_
      · exact ih hskip (by omega) hlater
      obtain rfl : j = mb := by
        unfold l2Entries at *
        omega
      rw [hwords] at hno
      simp only [pageAt, tableOf, hno, if_false, Option.bind_none]
    next hyes =>
      rw [not_not] at hyes
      have hsrcPt : tableOf c.kernelPhysBase a parent mb =
          some (physToVirt c.kernelPhysBase (l1Address (b.l1 parent mb))) := by
        rw [hwords] at hyes ⊢
        exact if_pos hyes
      rcases h.space.newTable hk hal hmb (hfree mb (le_refl _)) with
        hnone | ⟨b', pt, hr, hpt, hs, htable, hother, -, hat⟩
      · rw [hnone]
        exact ⟨b, m, false, rfl, h.space, fun hf => absurd hf (by simp)⟩
      · rw [hr]
        simp only [Option.bind_eq_bind, Option.bind_some, hpt, if_false]
        have hstart := h.congr hs hat
        rw [← Nat.add_zero (mb * l2Entries)] at hstart
        obtain ⟨d, m', ok, hd, hs', ht, hok⟩ := hstart.pages hsrc l2Entries hmb (Nat.zero_add _)
          htable hsrcPt
        rw [hd]
        cases ok with
        | false => exact ⟨d, m', false, rfl, hs', fun hf => absurd hf (by simp)⟩
        | true =>
          refine ih (hok rfl) (by omega) fun j hj => ?_
          rw [ht, hother j (by omega)]
          exact hlater j hj

end Loops

section Writes
variable {kpb : ℕ} {vm : Vm}

theorem userAddr_some {pgd va x : ℕ} (h : userAddr kpb vm pgd va = some x) :
    ∃ mb < procVaMb, ∃ i < l2Entries, ∃ pa, pageAt kpb vm pgd mb i = some pa ∧
      x = pa + va % pageSize ∧ va >>> 20 = mb ∧ l2Idx va = i := by
  unfold userAddr at h
  split at h
  next hlow =>
    obtain ⟨pa, hpa, rfl⟩ := Option.map_eq_some_iff.mp h
    refine ⟨_, ?_, _, ?_, pa, hpa, rfl, rfl, rfl⟩
    · rw [Nat.shiftRight_eq_div_pow]
      unfold procUserVaTop at hlow
      unfold procVaMb
      omega
    · rw [l2Idx_eq]
      exact Nat.mod_lt _ (by decide)
  next => exact absurd h (by simp)

theorem userWrites_frame {pgd y : ℕ} (hne : ∀ va x, userAddr kpb vm pgd va = some x → x ≠ y)
    (ws : List (ℕ × UInt8)) (m : Memory) : userWrites kpb vm pgd ws m y = m y := by
  induction ws generalizing m with
  | nil => rfl
  | cons w ws ih =>
    have hstep : userWrite kpb vm pgd m w y = m y := by
      unfold userWrite
      cases hx : userAddr kpb vm pgd w.1 with
      | none => rfl
      | some x => exact Function.update_of_ne (hne _ x hx).symm _ _
    exact (ih _).trans hstep

theorem userAddr_ne {pgd pgd' va va' x y : ℕ}
    (hal : ∀ pa ∈ spacePages kpb vm pgd, pa % pageSize = 0)
    (hal' : ∀ pa ∈ spacePages kpb vm pgd', pa % pageSize = 0)
    (hdis : ∀ pa ∈ spacePages kpb vm pgd, pa ∉ spacePages kpb vm pgd')
    (hx : userAddr kpb vm pgd va = some x) (hy : userAddr kpb vm pgd' va' = some y) : x ≠ y := by
  obtain ⟨mb, hmb, i, hi, pa, hpa, rfl, -⟩ := userAddr_some hx
  obtain ⟨mb', hmb', i', hi', pa', hpa', rfl, -⟩ := userAddr_some hy
  have hmem := mem_spacePages.mpr ⟨mb, hmb, i, hi, hpa⟩
  have hmem' := mem_spacePages.mpr ⟨mb', hmb', i', hi', hpa'⟩
  refine page_bytes_ne (hal pa hmem) (hal' pa' hmem') ?_ (Nat.mod_lt _ (by decide))
    (Nat.mod_lt _ (by decide))
  rintro rfl
  exact hdis pa hmem hmem'

end Writes

/-- What the fork of the current process of `s` leaves in `t`, with the child `p`: the same pages
mapped, with the same bytes as at the time of the fork, in pages of its own; and neither process
sees what the other one writes from then on. -/
structure ForkedApart (kpb : ℕ) (s t : System) (m m' : Memory) (p : ℕ) : Prop where
  mapped : ∀ va, (userAddr kpb t.vm (t.sched.proc p).pgd va).isSome =
    (userAddr kpb s.vm (s.sched.proc s.sched.currentProc).pgd va).isSome
  same : ∀ va x y, userAddr kpb s.vm (s.sched.proc s.sched.currentProc).pgd va = some x →
    userAddr kpb t.vm (t.sched.proc p).pgd va = some y → m' y = m x
  parent : ∀ va, userAddr kpb t.vm (t.sched.proc s.sched.currentProc).pgd va =
    userAddr kpb s.vm (s.sched.proc s.sched.currentProc).pgd va
  parentSame : ∀ va x,
    userAddr kpb s.vm (s.sched.proc s.sched.currentProc).pgd va = some x → m' x = m x
  nodup : (spacePages kpb t.vm (t.sched.proc p).pgd).Nodup
  disjoint : ∀ q ∈ s.procs, ∀ pa ∈ spacePages kpb t.vm (t.sched.proc p).pgd,
    pa ∉ spacePages kpb t.vm (t.sched.proc q).pgd
  childWrites : ∀ ws va x, userAddr kpb t.vm (t.sched.proc s.sched.currentProc).pgd va = some x →
    userWrites kpb t.vm (t.sched.proc p).pgd ws m' x = m' x
  parentWrites : ∀ ws va x, userAddr kpb t.vm (t.sched.proc p).pgd va = some x →
    userWrites kpb t.vm (t.sched.proc s.sched.currentProc).pgd ws m' x = m' x

section Fork
variable {c : BootConfig} {f : FoundTables} {a base : Vm} {m : Memory} {parent : ℕ} {s : System}

theorem OwnedOk.sourceOk (h : OwnedOk c.kernelPhysBase base s) {p : ℕ} (hp : p ∈ s.procs)
    (hreach : ∀ pa, paAligned pa → s.vm.pmm.paInRange pa → c.Reaches f pa) :
    SourceOk c f s.vm (s.sched.proc p).pgd := by
  refine ⟨h.holds.ok, fun d hd => h.block_live hp (List.mem_cons_of_mem _ hd),
    fun j hj k hk pa hpa => ?_, hreach⟩
  have hmem : pa ∈ s.procs.flatMap (procPages c.kernelPhysBase s.vm s.sched.proc) :=
    List.mem_flatMap.mpr ⟨p, hp, mem_spacePages.mpr ⟨j, hj, k, hk, hpa⟩⟩
  obtain ⟨i, hi, heq, -⟩ := h.holds.fresh pa hmem
  rw [mmPageIsAllocated_iff h.holds.ok.pmm, h.holds.region.totalPages, h.holds.region.ramBase]
  refine ⟨i, hi, heq, ?_⟩
  rw [h.holds.bits i hi, ← heq, decide_eq_true hmem, Bool.or_true]

/-- Copied tables and pages set the two processes apart. -/
theorem CopiedTo.apart {b : Vm} {m' : Memory} {B : List Client} {p pgd : ℕ}
    (h : OwnedOk c.kernelPhysBase base s) (hcur : s.sched.currentProc ∈ s.procs)
    (hsrc : SourceOk c f s.vm (s.sched.proc s.sched.currentProc).pgd)
    (hcopy : CopiedTo c.kernelPhysBase s.vm b m m' B (s.sched.proc s.sched.currentProc).pgd pgd
      (procVaMb * l2Entries)) {t : System} (hvm : t.vm = b) (hp : (t.sched.proc p).pgd = pgd)
    (hold : ∀ q ∈ s.procs, (t.sched.proc q).pgd = (s.sched.proc q).pgd) :
    ForkedApart c.kernelPhysBase s t m m' p := by
  subst hvm
  have hkept {q : ℕ} (hq : q ∈ s.procs) {j : ℕ} (hj : j < procVaMb) (k : ℕ) :
      pageAt c.kernelPhysBase t.vm (t.sched.proc q).pgd j k =
        pageAt c.kernelPhysBase s.vm (s.sched.proc q).pgd j k := by
    rw [hold q hq]
    exact Holds.pageAt_kept hcopy.space
      (fun d hd => h.block_live hq (List.mem_cons_of_mem _ hd)) hj k
  have hset {q : ℕ} (hq : q ∈ s.procs) {pa : ℕ}
      (hpa : pa ∈ spacePages c.kernelPhysBase t.vm (t.sched.proc q).pgd) :
      mmPageIsAllocated s.vm.pmm pa = true := by
    obtain ⟨j, hj, k, hk, hat⟩ := mem_spacePages.mp hpa
    rw [hkept hq hj] at hat
    exact (h.sourceOk hq hsrc.reach).pages j hj k hk pa hat
  have hnew {pa : ℕ} (hpa : pa ∈ spacePages c.kernelPhysBase t.vm (t.sched.proc p).pgd) :=
    Holds.fresh_page hsrc.ok.pmm hcopy.space (hp ▸ hpa)
  have hpair (va : ℕ) (hlow : va < procUserVaTop) : SamePage m m'
      (pageAt c.kernelPhysBase s.vm (s.sched.proc s.sched.currentProc).pgd (va >>> 20) (l2Idx va))
      (pageAt c.kernelPhysBase t.vm pgd (va >>> 20) (l2Idx va)) := by
    have hmb : va >>> 20 < procVaMb := by
      rw [Nat.shiftRight_eq_div_pow]
      unfold procUserVaTop at hlow
      unfold procVaMb
      omega
    have hi : l2Idx va < l2Entries := by
      rw [l2Idx_eq]
      exact Nat.mod_lt _ (by decide)
    exact hcopy.done _ hmb _ hi (by unfold l2Entries procVaMb at *; omega)
  have hdis {q : ℕ} (hq : q ∈ s.procs) {pa : ℕ}
      (hpa : pa ∈ spacePages c.kernelPhysBase t.vm (t.sched.proc p).pgd) :
      pa ∉ spacePages c.kernelPhysBase t.vm (t.sched.proc q).pgd := by
    intro hmem
    have hclear := (hnew hpa).2.2.2
    rw [hset hq hmem] at hclear
    exact absurd hclear (by decide)
  have halign {q : ℕ} (hq : q ∈ s.procs) {pa : ℕ}
      (hpa : pa ∈ spacePages c.kernelPhysBase t.vm (t.sched.proc q).pgd) : pa % pageSize = 0 :=
    (allocated_page hsrc.ok.pmm (hset hq hpa)).1
  refine ⟨fun va => ?_, fun va x y hx hy => ?_, fun va => ?_, fun va x hx => ?_, ?_,
    fun q hq pa hpa => hdis hq hpa, fun ws va x hx => ?_, fun ws va x hx => ?_⟩
  · unfold userAddr
    split
    next hlow =>
      have := hpair va hlow
      rw [hp, Option.isSome_map, Option.isSome_map]
      revert this
      cases pageAt c.kernelPhysBase s.vm (s.sched.proc s.sched.currentProc).pgd (va >>> 20)
          (l2Idx va) <;>
        cases pageAt c.kernelPhysBase t.vm pgd (va >>> 20) (l2Idx va) <;> simp [SamePage]
    next => rfl
  · have hlow : va < procUserVaTop := by
      by_contra hhigh
      rw [userAddr, if_neg hhigh] at hx
      exact absurd hx (by simp)
    have hsame := hpair va hlow
    rw [userAddr, if_pos hlow] at hx hy
    rw [hp] at hy
    obtain ⟨pa, hpa, rfl⟩ := Option.map_eq_some_iff.mp hx
    obtain ⟨qa, hqa, rfl⟩ := Option.map_eq_some_iff.mp hy
    rw [hpa, hqa] at hsame
    exact hsame _ (Nat.mod_lt _ (by decide))
  · unfold userAddr
    split
    next hlow =>
      have hmb : va >>> 20 < procVaMb := by
        rw [Nat.shiftRight_eq_div_pow]
        unfold procUserVaTop at hlow
        unfold procVaMb
        omega
      rw [hkept hcur hmb]
    next => rfl
  · obtain ⟨mb, hmb, i, hi, pa, hpa, rfl, -⟩ := userAddr_some hx
    exact hcopy.kept pa (hsrc.pages mb hmb i hi pa hpa) _ (Nat.mod_lt _ (by decide))
  · rw [hp]
    exact hcopy.space.nodup
  · refine userWrites_frame (fun va' y hy => ?_) ws m'
    exact userAddr_ne (fun pa hpa => (hnew hpa).1) (fun pa hpa => halign hcur hpa)
      (fun pa hpa => hdis hcur hpa) hy hx
  · refine userWrites_frame (fun va' y hy => ?_) ws m'
    exact (userAddr_ne (fun pa hpa => (hnew hpa).1) (fun pa hpa => halign hcur hpa)
      (fun pa hpa => hdis hcur hpa) hx hy).symm

end Fork

end Leg

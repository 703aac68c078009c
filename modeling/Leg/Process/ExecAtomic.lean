import Leg.Process.TableIntegrity

/-! What a `process_replace` that fails leaves behind. Up to the first L2 table of the new space
all clean-up paths are complete; from there on a failed load loses what it mapped, and a failed
stack leaves TTBR0 at the kernel's table. -/
namespace Leg
open Runs Slots

/-- The number of pages `map_pages` visits. -/
def LlfPhdr.pages (ph : LlfPhdr) : ℕ :=
  u32 (wsub ph.vaddr (ph.vaddr &&& bnot (pageSize - 1)) + ph.memsz + pageSize - 1) / pageSize

/-- Some segment of the image has a page to map. -/
def Llf.MapsPages (image : Llf) : Prop :=
  ∃ ph ∈ image.phdrs, ph.type ≠ llfSegNull ∧ ph.pages ≠ 0

/-- The load ends before it has attached a table: the file is missing, no executable or cannot be
read, its header is bad, or the heap has no room for the buffer or for the first L2 table. -/
def StopsEarly (file : Option FsFile) (vm : Vm) : Prop :=
  ∀ f, file = some f → f.executable = true →
    ∀ b buf, vm.kmalloc (alignUp f.size 512) = some (b, buf) → buf ≠ 0 →
      f.readable = true → llfHeaderSize ≤ alignUp f.size 512 → f.image.magic = llfMagic →
        f.image.MapsPages ∧ ∃ c, b.mmuAllocL2Table = some (c, 0)

/-- `process_replace` ends before it has attached a table. -/
def FailsEarly (s : System) (pid : ℕ) (file : Option FsFile) : Prop :=
  schedGet s.sched pid ≠ 0 → ∀ a pgd, s.vm.mmuAllocProcTable = some (a, pgd) → pgd ≠ 0 →
    StopsEarly file a

section Tables
variable {kpb : ℕ} {a b c : Vm} {pgd : ℕ}

/-- Slots that hold a table still do. -/
def TablesStay (b c : Vm) (pgd : ℕ) : Prop :=
  ∀ mb, entryType (b.l1 pgd mb) = l1PageTable → entryType (c.l1 pgd mb) = l1PageTable

theorem TablesStay.refl (b : Vm) (pgd : ℕ) : TablesStay b b pgd := fun _ h => h

theorem TablesStay.trans {d : Vm} (h : TablesStay b c pgd) (h' : TablesStay c d pgd) :
    TablesStay b d pgd := fun mb hmb => h' mb (h mb hmb)

theorem mmuAllocL2Table_l1 {pt : ℕ} (h : b.mmuAllocL2Table = some (c, pt)) : c.l1 = b.l1 := by
  unfold Vm.mmuAllocL2Table Vm.kmallocAligned at h
  obtain ⟨r, hr, heq⟩ := Option.map_eq_some_iff.mp h
  obtain ⟨q, -, rfl⟩ := Option.map_eq_some_iff.mp hr
  obtain ⟨rfl, -⟩ := Prod.ext_iff.mp heq
  dsimp only
  split <;> rfl

/-- `get_or_alloc_l2` fills the slot it is asked for, or changes no slot. -/
theorem getOrAllocL2_stays {mb pt : ℕ} (h : b.getOrAllocL2 kpb pgd mb = some (c, pt)) :
    TablesStay b c pgd ∧ (pt ≠ 0 → entryType (c.l1 pgd mb) = l1PageTable) := by
  unfold Vm.getOrAllocL2 at h
  split at h
  next htype =>
    obtain ⟨rfl, -⟩ := Prod.ext_iff.mp (Option.some.inj h)
    exact ⟨.refl _ _, fun _ => htype⟩
  next =>
    obtain ⟨⟨d, q⟩, hr, heq⟩ := Option.map_eq_some_iff.mp h
    obtain ⟨rfl, rfl⟩ := Prod.ext_iff.mp heq
    have hl1 := mmuAllocL2Table_l1 hr
    dsimp only
    split
    next hq =>
      have hset : entryType ((d.mmuAttachL2 kpb pgd mb q).l1 pgd mb) = l1PageTable := by
        simp [Vm.mmuAttachL2, Vm.setL1, entryType_l1TableEntry]
      refine ⟨fun j hj => ?_, fun _ => hset⟩
      by_cases hjm : j = mb
      · rw [hjm]
        exact hset
      · simpa [Vm.mmuAttachL2, Vm.setL1, hjm, hl1] using hj
    next hq =>
      refine ⟨fun j hj => ?_, fun h0 => absurd h0 hq⟩
      rwa [hl1]

/-- One round of `map_pages`: the table of the page's slot, then at most a page. -/
theorem mapPagesLoop_round {pageBase k i : ℕ} {ok : Bool}
    (h : mapPagesLoop kpb pgd pageBase (k + 1) i b = some (c, ok)) :
    ∃ d pt, b.getOrAllocL2 kpb pgd (u32 (pageBase + u32 (i * pageSize)) >>> 20) = some (d, pt) ∧
      ((pt = 0 ∧ c = d ∧ ok = false) ∨ pt ≠ 0 ∧ ∃ d', d'.l1 = d.l1 ∧
        (c = d' ∨ mapPagesLoop kpb pgd pageBase k (i + 1) d' = some (c, ok))) := by
  unfold mapPagesLoop at h
  obtain ⟨⟨d, pt⟩, hd, h⟩ := Option.bind_eq_some_iff.mp h
  refine ⟨d, pt, hd, ?_⟩
  dsimp only at h
  split at h
  next hpt =>
    obtain ⟨rfl, rfl⟩ := Prod.ext_iff.mp (Option.some.inj h)
    exact .inl ⟨hpt, rfl, rfl⟩
  next hpt =>
    refine .inr ⟨hpt, ?_⟩
    split at h
    next => exact ⟨d, rfl, .inr (by simpa using h)⟩
    next =>
      split at h
      next =>
        obtain ⟨rfl, -⟩ := Prod.ext_iff.mp (Option.some.inj h)
        exact ⟨d.pageAlloc.1, rfl, .inl rfl⟩
      next =>
        exact ⟨d.pageAlloc.1.mmuMapPage pt (u32 (pageBase + u32 (i * pageSize))) d.pageAlloc.2, rfl,
          .inr h⟩

theorem mapPagesLoop_stays {pageBase k i : ℕ} {ok : Bool}
    (h : mapPagesLoop kpb pgd pageBase k i b = some (c, ok)) : TablesStay b c pgd := by
  induction k generalizing i b with
  | zero =>
    obtain ⟨rfl, -⟩ := Prod.ext_iff.mp (Option.some.inj h)
    exact .refl _ _
  | succ k ih =>
    obtain ⟨d, pt, hd, hrest⟩ := mapPagesLoop_round h
    refine (getOrAllocL2_stays hd).1.trans ?_
    rcases hrest with ⟨-, rfl, -⟩ | ⟨-, d', hl1, hrest⟩
    · exact .refl _ _
    · have hd' : TablesStay d d' pgd := fun mb hmb => by rwa [hl1]
      rcases hrest with rfl | hrest
      · exact hd'
      · exact hd'.trans (ih hrest)

theorem mapSegments_stays {phs : List LlfPhdr} {ok : Bool}
    (h : mapSegments kpb pgd phs b = some (c, ok)) : TablesStay b c pgd := by
  induction phs generalizing b with
  | nil =>
    obtain ⟨rfl, -⟩ := Prod.ext_iff.mp (Option.some.inj h)
    exact .refl _ _
  | cons ph phs ih =>
    unfold mapSegments at h
    split at h
    next => exact ih h
    next =>
      obtain ⟨⟨d, ok'⟩, hd, h⟩ := Option.bind_eq_some_iff.mp h
      have hstay := mapPagesLoop_stays hd
      dsimp only at h
      split at h
      next => exact hstay.trans (ih h)
      next =>
        obtain ⟨rfl, -⟩ := Prod.ext_iff.mp (Option.some.inj h)
        exact hstay

end Tables

section First
variable {kpb : ℕ} {a b c : Vm} {B : List Client} {pgd : ℕ}

/-- A slot of the user's range holds a table. -/
def HasTable (b : Vm) (pgd : ℕ) : Prop := ∃ mb < procVaMb, entryType (b.l1 pgd mb) = l1PageTable

theorem TablesStay.hasTable (h : TablesStay b c pgd) (hb : HasTable b pgd) : HasTable c pgd := by
  obtain ⟨mb, hmb, ht⟩ := hb
  exact ⟨mb, hmb, h mb ht⟩

theorem hasTable_iff (kpb : ℕ) : HasTable b pgd ↔ spaceTables kpb b pgd ≠ [] := by
  constructor
  · rintro ⟨mb, hmb, ht⟩ hnil
    have hmem : _ ∈ spaceTables kpb b pgd := mem_spaceTables hmb (if_pos ht)
    rw [hnil] at hmem
    exact absurd hmem (by simp)
  · intro hne
    obtain ⟨pt, hpt⟩ := List.exists_mem_of_ne_nil _ hne
    obtain ⟨mb, hmb, ht⟩ := mem_occupied.mp hpt
    refine ⟨mb, hmb, ?_⟩
    by_contra hno
    rw [tableOf, if_neg hno] at ht
    exact absurd ht (by simp)

/-- The first page of an image asks for the first table. -/
theorem mapPagesLoop_first (hno : ¬ HasTable b pgd) {pageBase k i : ℕ} {ok : Bool}
    (hbelow : pageBase + i * pageSize < procUserVaTop)
    (halloc : b.mmuAllocL2Table = some (b, 0) ∨ ∃ d pt, b.mmuAllocL2Table = some (d, pt) ∧ pt ≠ 0)
    (h : mapPagesLoop kpb pgd pageBase (k + 1) i b = some (c, ok)) :
    (b.mmuAllocL2Table = some (b, 0) ∧ c = b ∧ ok = false) ∨
      (∃ d pt, b.mmuAllocL2Table = some (d, pt) ∧ pt ≠ 0) ∧ HasTable c pgd := by
  have hva : u32 (pageBase + u32 (i * pageSize)) = pageBase + i * pageSize := by
    unfold u32 pageSize procUserVaTop at *
    omega
  have hmb : (pageBase + i * pageSize) >>> 20 < procVaMb := by
    rw [Nat.shiftRight_eq_div_pow]
    unfold procVaMb procUserVaTop at *
    omega
  obtain ⟨d, pt, hd, hrest⟩ := mapPagesLoop_round h
  rw [hva] at hd
  have hset := (getOrAllocL2_stays hd).2
  have hget : b.getOrAllocL2 kpb pgd ((pageBase + i * pageSize) >>> 20) =
      b.mmuAllocL2Table.map fun r => (if r.2 ≠ 0 then r.1.mmuAttachL2 kpb pgd
        ((pageBase + i * pageSize) >>> 20) r.2 else r.1, r.2) := by
    rw [Vm.getOrAllocL2, if_neg fun ht => hno ⟨_, hmb, ht⟩]
  rw [hget] at hd
  rcases halloc with hnull | ⟨e, q, he, hq⟩
  · left
    rw [hnull] at hd
    obtain ⟨rfl, rfl⟩ := Prod.ext_iff.mp (Option.some.inj hd)
    rcases hrest with ⟨-, rfl, rfl⟩ | ⟨hpt, -⟩
    · exact ⟨hnull, rfl, rfl⟩
    · exact absurd rfl hpt
  · refine .inr ⟨⟨e, q, he, hq⟩, ?_⟩
    rw [he] at hd
    obtain ⟨-, rfl⟩ := Prod.ext_iff.mp (Option.some.inj hd)
    rcases hrest with ⟨hpt, -⟩ | ⟨hpt, d', hl1, hrest⟩
    · exact absurd hpt hq
    · have hd' : HasTable d' pgd := ⟨_, hmb, by rw [hl1]; exact hset hpt⟩
      rcases hrest with rfl | hrest
      · exact hd'
      · exact (mapPagesLoop_stays hrest).hasTable hd'

/-- The segments, likewise: an image without a page to map asks for nothing. -/
theorem mapSegments_first (hno : ¬ HasTable b pgd) {phs : List LlfPhdr} {ok : Bool}
    (hphs : ∀ ph ∈ phs, ph.type ≠ llfSegNull → ph.vaddr + ph.memsz ≤ procUserVaTop)
    (halloc : b.mmuAllocL2Table = some (b, 0) ∨ ∃ d pt, b.mmuAllocL2Table = some (d, pt) ∧ pt ≠ 0)
    (h : mapSegments kpb pgd phs b = some (c, ok)) :
    if (∃ ph ∈ phs, ph.type ≠ llfSegNull ∧ ph.pages ≠ 0) then
      (b.mmuAllocL2Table = some (b, 0) ∧ c = b ∧ ok = false) ∨
        (∃ d pt, b.mmuAllocL2Table = some (d, pt) ∧ pt ≠ 0) ∧ HasTable c pgd
    else c = b ∧ ok = true := by
  induction phs with
  | nil =>
    obtain ⟨rfl, rfl⟩ := Prod.ext_iff.mp (Option.some.inj h)
    rw [if_neg (by simp)]
    exact ⟨rfl, rfl⟩
  | cons ph phs ih =>
    have hrest := fun q hq => hphs q (List.mem_cons_of_mem ph hq)
    unfold mapSegments at h
    by_cases hskip : ph.type = llfSegNull ∨ ph.pages = 0
    · have hiff : (∃ q ∈ ph :: phs, q.type ≠ llfSegNull ∧ q.pages ≠ 0) ↔
          ∃ q ∈ phs, q.type ≠ llfSegNull ∧ q.pages ≠ 0 := by
        simp only [List.mem_cons, exists_eq_or_imp]
        exact ⟨fun hor => hor.resolve_left fun hboth => hskip.elim hboth.1 hboth.2, .inr⟩
      simp only [hiff]
      split at h
      next => exact ih hrest h
      next hnull =>
        have hzero : mapPages kpb pgd ph.vaddr ph.memsz b = some (b, true) := by
          have h0 : ph.pages = 0 := hskip.resolve_left hnull
          unfold mapPages
          rw [LlfPhdr.pages] at h0
          dsimp only
          rw [h0]
          rfl
        rw [hzero] at h
        exact ih hrest h
    · obtain ⟨hnull, hpages⟩ := not_or.mp hskip
      rw [if_pos ⟨ph, List.mem_cons_self .., hnull, hpages⟩]
      rw [if_neg hnull] at h
      obtain ⟨⟨d, ok'⟩, hd, h⟩ := Option.bind_eq_some_iff.mp h
      have hend := hphs ph (List.mem_cons_self ..) hnull
      obtain ⟨k, hk⟩ := Nat.exists_eq_succ_of_ne_zero hpages
      have hva : ph.vaddr < 4294967296 := by
        unfold procUserVaTop at hend
        omega
      have hbase : ph.vaddr &&& bnot (pageSize - 1) = ph.vaddr / pageSize * pageSize :=
        alignDown_page hva
      have hbelow : (ph.vaddr &&& bnot (pageSize - 1)) + 0 * pageSize < procUserVaTop := by
        rw [LlfPhdr.pages, hbase, wsub_of_le (Nat.div_mul_le_self _ _) hva] at hpages
        rw [hbase]
        unfold u32 pageSize procUserVaTop at *
        omega
      have hd' : mapPagesLoop kpb pgd (ph.vaddr &&& bnot (pageSize - 1)) (k + 1) 0 b =
          some (d, ok') := by
        unfold mapPages at hd
        rw [LlfPhdr.pages] at hk
        dsimp only at hd
        rwa [hk] at hd
      dsimp only at h
      rcases mapPagesLoop_first hno hbelow halloc hd' with ⟨hnone, rfl, rfl⟩ | ⟨hsome, htable⟩
      · obtain ⟨rfl, rfl⟩ := Prod.ext_iff.mp (Option.some.inj h)
        exact .inl ⟨hnone, rfl, rfl⟩
      · refine .inr ⟨hsome, ?_⟩
        split at h
        next => exact (mapSegments_stays h).hasTable htable
        next =>
          obtain ⟨rfl, -⟩ := Prod.ext_iff.mp (Option.some.inj h)
          exact htable

theorem hasTable_congr (h : c.l1 = b.l1) : HasTable c pgd ↔ HasTable b pgd := by
  unfold HasTable
  rw [h]

theorem kfree_l1 {ptr : ℕ} (h : b.kfree ptr = some c) : c.l1 = b.l1 := by
  obtain ⟨t, -, rfl⟩ := Option.map_eq_some_iff.mp h
  rfl

theorem Holds.l2Table {P : List ℕ} (h : Holds a b B P) :
    b.mmuAllocL2Table = some (b, 0) ∨ ∃ d pt, b.mmuAllocL2Table = some (d, pt) ∧ pt ≠ 0 := by
  rcases h.alloc (k := 10) (by decide : l2TableSize ≤ kheapSize) (by decide) (by decide) with
    hr | ⟨d, pt, hr, hpt, -⟩
  · left
    rw [Vm.mmuAllocL2Table, show b.kmallocAligned l2TableSize l2TableSize = _ from hr]
    rfl
  · right
    rw [Vm.mmuAllocL2Table, show b.kmallocAligned l2TableSize l2TableSize = _ from hr]
    exact ⟨_, pt, rfl, hpt⟩

/-- `llf_load` of an image whose header is good fails without a table in place exactly when the
first table cannot be allocated. -/
theorem llfLoad_first (hno : ¬ HasTable b pgd) {image : Llf} {bufSize : ℕ} {entry : Option ℕ}
    (hsize : llfHeaderSize ≤ bufSize) (hmagic : image.magic = llfMagic)
    (himage : image.Below procUserVaTop)
    (halloc : b.mmuAllocL2Table = some (b, 0) ∨ ∃ d pt, b.mmuAllocL2Table = some (d, pt) ∧ pt ≠ 0)
    (h : llfLoad kpb pgd image bufSize b = some (c, entry)) :
    ((image.MapsPages ∧ ∃ d, b.mmuAllocL2Table = some (d, 0)) → entry = none ∧ ¬ HasTable c pgd) ∧
      (¬ (image.MapsPages ∧ ∃ d, b.mmuAllocL2Table = some (d, 0)) →
        entry = none → HasTable c pgd) := by
  unfold llfLoad at h
  rw [if_neg (Nat.not_lt.mpr hsize), if_neg (not_not.mpr hmagic)] at h
  obtain ⟨⟨d, ok⟩, hd, h⟩ := Option.bind_eq_some_iff.mp h
  obtain ⟨rfl, rfl⟩ := Prod.ext_iff.mp (Option.some.inj h)
  have hfirst := mapSegments_first hno himage halloc hd
  dsimp only
  split at hfirst
  next hpages =>
    rcases hfirst with ⟨hnone, rfl, rfl⟩ | ⟨⟨e, pt, he, hpt⟩, htable⟩
    · exact ⟨fun _ => ⟨rfl, hno⟩, fun hc => absurd ⟨hpages, d, hnone⟩ hc⟩
    · refine ⟨fun ⟨_, u, hu⟩ => ?_, fun _ _ => htable⟩
      exact absurd (Prod.ext_iff.mp (Option.some.inj (he.symm.trans hu))).2 hpt
  next hpages =>
    rw [hfirst.2]
    exact ⟨fun hc => absurd hc.1 hpages, fun _ hc => absurd hc (by simp)⟩

/-- `load_user_image` fails without a table in place exactly when it stops early. -/
theorem loadUserImage_early (h : Space kpb a b B pgd) (hno : ¬ HasTable b pgd)
    {file : Option FsFile} (hfile : InUserRange file) {entry : Option ℕ}
    (hl : loadUserImage kpb pgd file b = some (c, entry)) :
    (StopsEarly file b → entry = none ∧ ¬ HasTable c pgd) ∧
      (¬ StopsEarly file b → entry = none → HasTable c pgd) := by
  cases file with
  | none =>
    obtain ⟨rfl, rfl⟩ := Prod.ext_iff.mp (Option.some.inj hl)
    exact ⟨fun _ => ⟨rfl, hno⟩, fun hs => absurd (fun f hf => absurd hf (by simp)) hs⟩
  | some f =>
    unfold loadUserImage at hl
    dsimp only at hl
    split at hl
    next hexec =>
      obtain ⟨rfl, rfl⟩ := Prod.ext_iff.mp (Option.some.inj hl)
      refine ⟨fun _ => ⟨rfl, hno⟩, fun hs => absurd (fun g hg hx => ?_) hs⟩
      exact absurd (Option.some.inj hg ▸ hx) hexec
    next hexec =>
    have hsize : alignUp f.size 512 + 7 < 4294967296 := by
      have : alignUp f.size 512 = u32 (f.size + 512 - 1) / 512 * 512 :=
        alignUp_two_pow (k := 9) (by decide)
      unfold u32 at this
      omega
    rcases Holds.kmalloc h hsize with hr | ⟨b1, buf, hr, hbuf, hb1, h1, -⟩
    · rw [hr] at hl
      obtain ⟨rfl, rfl⟩ := Prod.ext_iff.mp (Option.some.inj hl)
      refine ⟨fun _ => ⟨rfl, hno⟩, fun hs => absurd (fun g hg hx b2 buf2 hr2 hne => ?_) hs⟩
      rw [← Option.some.inj hg, hr] at hr2
      exact absurd (Prod.ext_iff.mp (Option.some.inj hr2)).2.symm hne
    rw [hr] at hl
    simp only [Option.bind_eq_bind, Option.bind_some, hbuf, if_false] at hl
    obtain ⟨⟨d, entry'⟩, hd, hl⟩ := Option.bind_eq_some_iff.mp hl
    obtain ⟨e, he, hl⟩ := Option.bind_eq_some_iff.mp hl
    obtain ⟨rfl, rfl⟩ := Prod.ext_iff.mp (Option.some.inj hl)
    dsimp only at he ⊢
    have hno1 : ¬ HasTable b1 pgd := by rwa [hasTable_congr h1]
    rw [hasTable_congr (kfree_l1 he)]
    -- only an image with a good header is mapped
    by_cases hgood : f.readable = true ∧ llfHeaderSize ≤ alignUp f.size 512 ∧
        f.image.magic = llfMagic
    · obtain ⟨hread, hlen, hmagic⟩ := hgood
      rw [readAndLoad, if_pos hread] at hd
      obtain ⟨hstop, hgo⟩ := llfLoad_first hno1 hlen hmagic (hfile f rfl) hb1.l2Table hd
      refine ⟨fun hs => hstop (hs f rfl (by simpa using hexec) b1 buf hr hbuf hread hlen hmagic),
        fun hs => hgo fun hc => hs fun g hg _ b2 buf2 hr2 _ _ _ _ => ?_⟩
      rw [← Option.some.inj hg, hr, Option.some_inj, Prod.mk.injEq] at hr2
      rw [← Option.some.inj hg, ← hr2.1]
      exact hc
    · have hearly : StopsEarly (some f) b := fun g hg _ _ _ _ _ hread hlen hmagic => by
        rw [← Option.some.inj hg] at hread hlen hmagic
        exact absurd ⟨hread, hlen, hmagic⟩ hgood
      refine ⟨fun _ => ?_, fun hs => absurd hearly hs⟩
      have hfail : some (d, entry') = some (b1, none) := by
        rw [← hd]
        unfold readAndLoad llfLoad
        split
        next hread =>
          split
          next => rfl
          next hlen =>
            rw [if_pos fun hmagic => hgood ⟨hread, Nat.not_lt.mp hlen, hmagic⟩]
        next => rfl
      rw [Option.some_inj, Prod.mk.injEq] at hfail
      rw [hfail.1]
      exact ⟨hfail.2, hno1⟩

end First

/-- `process_replace` with TTBR0: `llf_load` switches to the new table for its copies and then
to the kernel's own, and `context_switch` installs the table of the process. -/
def System.execReplace (kpb kernelTable : ℕ) (s : System) (ttbr0 pid : ℕ) (file : Option FsFile) :
    Option (System × ℕ × Bool) :=
  let p := schedGet s.sched pid
  if p = 0 then some (s, ttbr0, false)
  else do
    let (vm, newPgd) ← s.vm.mmuAllocProcTable
    if newPgd = 0 then return ({ s with vm := vm }, ttbr0, false)
    let (vm, entry) ← loadUserImage kpb newPgd file vm
    match entry with
    | none =>
      let vm ← vm.kfree newPgd
      return ({ s with vm := vm }, ttbr0, false)
    | some entry =>
      let ttbr0 := virtToPhys kpb kernelTable
      let (vm, tmp, ok) ← setupInitialStack kpb vm { (default : Process) with pgd := newPgd }
      if ¬ ok then
        let vm ← freeTables kpb newPgd vm
        let vm ← vm.kfree newPgd
        return ({ s with vm := vm }, ttbr0, false)
      let oldPgd := (s.sched.proc p).pgd
      let sched := s.sched.write p (replaceImage newPgd entry tmp.stackPt tmp.stackPages)
      let vm ← freeTables kpb oldPgd vm
      let vm ← vm.kfree oldPgd
      if p = s.sched.currentProc then
        return ({ s with vm := vm, sched := contextSwitch sched p }, virtToPhys kpb newPgd, true)
      return ({ s with vm := vm, sched := sched }, ttbr0, true)

/-- The pages and heap blocks in use, the process table and TTBR0 are as they were. -/
def Unchanged (s t : System) (ttbr0 ttbr0' : ℕ) : Prop :=
  SameMemory s.vm t.vm ∧ t.sched = s.sched ∧ ttbr0' = ttbr0

section Failure
variable {kpb kernelTable : ℕ} {s t : System} {ttbr0 ttbr0' pid : ℕ} {file : Option FsFile}

theorem drop_sameMemory {a b c : Vm} {pgd : ℕ} (ha : PmmOk a.pmm) (h : Space kpb a b [] pgd)
    (hc : b.kfree pgd = some c) : SameMemory a c ↔ ¬ HasTable b pgd := by
  have hmem : (⟨pgd, procTableSize⟩ : Client) ∈ spaceBlocks kpb b pgd ++ [] :=
    List.mem_append_left _ (List.mem_cons_self ..)
  obtain ⟨d, hd, hholds, -⟩ := Holds.free h hmem
  obtain rfl : c = d := Option.some.inj (hc.symm.trans hd)
  rw [spaceBlocks, List.append_nil, List.erase_cons_head] at hholds
  rw [hasTable_iff kpb]
  constructor
  · intro hsame hne
    have hlen := hholds.live.length_eq
    rw [List.length_append, List.length_map, hsame.2.length_eq] at hlen
    have := List.length_pos_iff.mpr hne
    omega
  · intro hnil
    rw [not_not] at hnil
    rw [spacePages, hnil] at hholds
    exact hholds.sameMemory ha

/-- A `process_replace` that fails has changed nothing exactly when it failed early. -/
theorem execReplace_unchanged (hk : kpb < 4294967296) (hal : kpb % 1024 = 0) (hok : VmOk s.vm)
    (hown : ttbr0 ≠ virtToPhys kpb kernelTable) (hfile : InUserRange file)
    (ht : s.execReplace kpb kernelTable ttbr0 pid file = some (t, ttbr0', false)) :
    Unchanged s t ttbr0 ttbr0' ↔ FailsEarly s pid file := by
  have hrefl : SameMemory s.vm s.vm := ⟨fun _ => rfl, .refl _⟩
  unfold System.execReplace at ht
  dsimp only at ht
  split at ht
  next h0 =>
    simp only [Option.some_inj, Prod.mk.injEq, and_true] at ht
    obtain ⟨rfl, rfl⟩ := ht
    exact ⟨fun _ hne => absurd h0 hne, fun _ => ⟨hrefl, rfl, rfl⟩⟩
  next hpid =>
  have hearly (a : Vm) (pgd : ℕ) (hr : s.vm.mmuAllocProcTable = some (a, pgd)) (hpgd : pgd ≠ 0) :
      FailsEarly s pid file ↔ StopsEarly file a := by
    refine ⟨fun hf => hf hpid a pgd hr hpgd, fun hs _ a' pgd' hr' _ => ?_⟩
    rw [hr, Option.some_inj, Prod.mk.injEq] at hr'
    rwa [← hr'.1]
  rcases (Holds.refl hok).procTable kpb with hr | ⟨b, pgd, hr, hpgd, hs, hempty⟩
  · rw [hr] at ht
    simp only [Option.bind_eq_bind, Option.bind_some, if_true, Option.pure_def, Option.some_inj,
      Prod.mk.injEq, and_true] at ht
    obtain ⟨rfl, rfl⟩ := ht
    refine ⟨fun _ _ a' pgd' hr' hne => ?_, fun _ => ⟨hrefl, rfl, rfl⟩⟩
    rw [hr, Option.some_inj, Prod.mk.injEq] at hr'
    exact absurd hr'.2.symm hne
  rw [hearly b pgd hr hpgd]
  rw [hr] at ht
  simp only [Option.bind_eq_bind, Option.bind_some, hpgd, if_false] at ht
  have hno : ¬ HasTable b pgd := by
    rw [hasTable_iff kpb, not_not]
    exact occupied_none fun mb _ => hempty mb
  obtain ⟨c, entry, hc, hext⟩ := hs.loadUserImage hk hal (le_refl _) (by decide) hfile
  obtain ⟨hstop, hgo⟩ := loadUserImage_early hs hno hfile hc
  rw [hc] at ht
  cases entry with
  | none =>
    simp only [Option.bind_some] at ht
    obtain ⟨d, hd, ht⟩ := Option.bind_eq_some_iff.mp ht
    simp only [Option.pure_def, Option.some_inj, Prod.mk.injEq, and_true] at ht
    obtain ⟨rfl, rfl⟩ := ht
    have hdrop := drop_sameMemory hok.pmm hext.space hd
    constructor
    · intro hsame
      by_contra hlate
      exact hdrop.mp hsame.1 (hgo hlate rfl)
    · intro hs'
      exact ⟨hdrop.mpr (hstop hs').2, rfl, rfl⟩
  | some entry =>
    -- the image is in place, so a failure now comes from the stack, under the kernel's table
    have hlate : ¬ StopsEarly file b := fun hs' => absurd (hstop hs').1 (by simp)
    simp only [Option.bind_some] at ht
    obtain ⟨⟨d, tmp, ok⟩, -, ht⟩ := Option.bind_eq_some_iff.mp ht
    have httbr : ttbr0' = virtToPhys kpb kernelTable := by
      cases ok with
      | false =>
        obtain ⟨e, -, ht⟩ := Option.bind_eq_some_iff.mp (by simpa using ht)
        obtain ⟨f, -, ht⟩ := Option.bind_eq_some_iff.mp ht
        simp only [Option.some_inj, Prod.mk.injEq] at ht
        exact ht.2.1.symm
      | true =>
        obtain ⟨e, -, ht⟩ := Option.bind_eq_some_iff.mp (by simpa using ht)
        obtain ⟨f, -, ht⟩ := Option.bind_eq_some_iff.mp ht
        split at ht
        all_goals simp at ht
    exact ⟨fun hsame => absurd (hsame.2.2.symm.trans httbr) hown, fun hs' => absurd hs' hlate⟩

end Failure

theorem countedRun_owned {c : BootConfig} {boot : System} {n : Counted} {ops : List TableOp}
    (hb : boot.Boot c) (hcur : boot.sched.currentProc = 0)
    (hr : Run (CountedStep c.kernelPhysBase) ⟨boot, 0⟩ ops n) :
    Owned c.kernelPhysBase boot.vm n.sys ∧ CurrentOk n.sys := by
  obtain ⟨hk, hal⟩ := c.kernelPhysBase_bounds
  refine hr.preserves (I := fun m => Owned c.kernelPhysBase boot.vm m.sys ∧ CurrentOk m.sys)
    (fun m op k hm hs => ?_) ⟨⟨_, .refl _, boot_owned hb⟩, fun _ h0 => absurd hcur h0⟩
  have hstep := tableNext_stepped hk hal hm.1 hm.2 hs.2.1 hs.2.2.1
  exact ⟨hstep.owned, hstep.current⟩

/-- In every reachable state, a `process_replace` that fails while the caller's own table is
installed has changed nothing exactly when it failed before its first L2 table. -/
theorem exec_unchanged_iff {c : BootConfig} {boot : System} {n : Counted} {ops : List TableOp}
    {kernelTable ttbr0 ttbr0' pid : ℕ} {file : Option FsFile} {t : System}
    (hb : boot.Boot c) (hcur : boot.sched.currentProc = 0)
    (hr : Run (CountedStep c.kernelPhysBase) ⟨boot, 0⟩ ops n)
    (hown : ttbr0 ≠ virtToPhys c.kernelPhysBase kernelTable) (hfile : InUserRange file)
    (ht : n.sys.execReplace c.kernelPhysBase kernelTable ttbr0 pid file = some (t, ttbr0', false)) :
    Unchanged n.sys t ttbr0 ttbr0' ↔ FailsEarly n.sys pid file := by
  obtain ⟨hk, hal⟩ := c.kernelPhysBase_bounds
  obtain ⟨⟨base, -, howned⟩, -⟩ := countedRun_owned hb hcur hr
  exact execReplace_unchanged hk hal howned.holds.ok hown hfile ht

/-- A RAM node of eight pages. -/
def smallRamConfig : BootConfig := { highRamConfig with memSize := 0x8000 }

/-- An image of four code pages. -/
def largeFile : FsFile where
  size := 600
  executable := true
  readable := true
  image := ⟨llfMagic, 0x400000, [⟨1, 0x400000, 0x4000⟩]⟩

theorem largeFile_inUserRange : InUserRange (some largeFile) := by
  intro f hf ph hph _
  rw [← Option.some.inj hf] at hph
  obtain rfl : ph = ⟨1, 0x400000, 0x4000⟩ := by simpa [largeFile] using hph
  decide

/-- TTBR0 while the current process runs. -/
def System.callerTtbr0 (kpb : ℕ) (s : System) : ℕ :=
  virtToPhys kpb (s.sched.proc s.sched.currentProc).pgd

/-- The first process is in place with its six pages; it replaces itself with a file that is not
there, or with an image for which two pages are too few. -/
theorem smallRam_run : ∃ boot n, System.Boot smallRamConfig boot ∧ boot.sched.currentProc = 0 ∧
    Run (CountedStep smallRamConfig.kernelPhysBase) ⟨boot, 0⟩
      [.call (.create (some initFile)), .call (.exec 0xC0104000)] n ∧
    let ttbr0 := n.sys.callerTtbr0 smallRamConfig.kernelPhysBase
    ttbr0 ≠ virtToPhys smallRamConfig.kernelPhysBase 0xC0008000 ∧
    (∃ t, n.sys.execReplace smallRamConfig.kernelPhysBase 0xC0008000 ttbr0 1 none =
      some (t, ttbr0, false)) ∧
    ∃ t ttbr0', n.sys.execReplace smallRamConfig.kernelPhysBase 0xC0008000 ttbr0 1
      (some largeFile) = some (t, ttbr0', false) ∧ t.vm.live.length ≠ n.sys.vm.live.length := by
  have hany : ((smallRamConfig.init fun _ => 0).bind fun g =>
      execute (fun m op => m.sys.admitsStep op) (Counted.next smallRamConfig.kernelPhysBase)
        ⟨systemOf smallRamConfig g, 0⟩
        [.call (.create (some initFile)), .call (.exec 0xC0104000)]).any
      (fun n => let ttbr0 := n.sys.callerTtbr0 smallRamConfig.kernelPhysBase
        decide (ttbr0 ≠ virtToPhys smallRamConfig.kernelPhysBase 0xC0008000) &&
        ((n.sys.execReplace smallRamConfig.kernelPhysBase 0xC0008000 ttbr0 1 none).any fun r =>
          decide (r.2 = (ttbr0, false))) &&
        (n.sys.execReplace smallRamConfig.kernelPhysBase 0xC0008000 ttbr0 1 (some largeFile)).any
          fun r => decide (r.2.2 = false ∧ r.1.vm.live.length ≠ n.sys.vm.live.length)) = true := by
    decide +kernel
  obtain ⟨n, hn, htest⟩ := (Option.any_eq_true _ _).mp hany
  obtain ⟨g, hg, hexec⟩ := Option.bind_eq_some_iff.mp hn
  dsimp only at htest
  obtain ⟨hfirst, hlarge⟩ := (Bool.and_eq_true _ _).mp htest
  obtain ⟨hown, hnone⟩ := (Bool.and_eq_true _ _).mp hfirst
  obtain ⟨⟨t, r⟩, ht, heq⟩ := (Option.any_eq_true _ _).mp hnone
  obtain ⟨⟨u, ttbr0', ok⟩, hu, hbad⟩ := (Option.any_eq_true _ _).mp hlarge
  have hstep : ∀ (m : Counted) (op : TableOp) (k : Counted), m.sys.admitsStep op = true →
      m.next smallRamConfig.kernelPhysBase op = some k →
      CountedStep smallRamConfig.kernelPhysBase m op k := fun _ _ _ => countedStep_of_next
  obtain ⟨hfalse, hlen⟩ := of_decide_eq_true hbad
  refine ⟨_, n, ⟨by decide +kernel, ⟨_, g, [], ⟨g, []⟩, hg, .nil _, rfl⟩,
    ⟨_, [], _, .nil _, rfl, rfl⟩, fun _ => rfl, rfl⟩, rfl, Run.of_execute hstep hexec,
    of_decide_eq_true hown, ⟨t, ?_⟩, u, ttbr0', ?_, hlen⟩
  · rw [ht]
    exact congrArg (fun r => some (t, r)) (of_decide_eq_true heq)
  · rw [hu, show ok = false from hfalse]

/-- A replacement by a file that is not there changes nothing. -/
theorem exec_unchanged_missing : ∃ (n : Counted) (t : System) (ttbr0 : ℕ),
    n.sys.execReplace smallRamConfig.kernelPhysBase 0xC0008000 ttbr0 1 none =
      some (t, ttbr0, false) ∧ Unchanged n.sys t ttbr0 ttbr0 := by
  obtain ⟨boot, n, hb, hcur, hr, hown, ⟨t, ht⟩, -⟩ := smallRam_run
  refine ⟨n, t, _, ht, (exec_unchanged_iff hb hcur hr hown (fun f hf => absurd hf (by simp)) ht).mpr
    fun _ _ _ _ _ f hf => absurd hf (by simp)⟩

/-- Two of four pages are mapped when RAM runs out: the new L2 table stays allocated. -/
theorem exec_leaks_table : ¬ ∀ c boot (n : Counted) ops kernelTable ttbr0 ttbr0' pid file t,
    System.Boot c boot → boot.sched.currentProc = 0 →
    Run (CountedStep c.kernelPhysBase) ⟨boot, 0⟩ ops n →
    ttbr0 ≠ virtToPhys c.kernelPhysBase kernelTable → InUserRange file →
    n.sys.execReplace c.kernelPhysBase kernelTable ttbr0 pid file = some (t, ttbr0', false) →
    Unchanged n.sys t ttbr0 ttbr0' := by
  intro h
  obtain ⟨boot, n, hb, hcur, hr, hown, -, t, ttbr0', ht, hlen⟩ := smallRam_run
  have hsame := h _ _ _ _ _ _ _ _ _ _ hb hcur hr hown largeFile_inUserRange ht
  exact hlen hsame.1.2.length_eq

end Leg

import Leg.Lib.LastStore
import Leg.Process.ImageCoverage
import Leg.Storage.Elf

/-! From the executable to the process: the packed file of an executable is loaded into a new
space, which then reads the executable's memory image. -/
namespace Leg
open Runs Slots LastStore

/-- The file in a memory of its own. -/
def fileMemory (bytes : List UInt8) : Memory := fun a => bytes.getD a 0

/-- A blob of `size` bytes, whose buffer holds `f` after the read. -/
def FsFile.ofMemory (f : Memory) (size : ℕ) (executable readable : Bool) : FsFile where
  size := size
  executable := executable
  readable := readable
  image := llfAt f 0

/-- A blob with these bytes. -/
def FsFile.ofBytes (bytes : List UInt8) (executable readable : Bool) : FsFile :=
  .ofMemory (fileMemory bytes) bytes.length executable readable

def LlfContents.ofBytes (bytes : List UInt8) : LlfContents := llfContentsAt (fileMemory bytes) 0

theorem fileMemory_stored (bytes : List UInt8) : (fileMemory bytes).Stored 0 bytes := by
  intro k hk
  rw [fileMemory, Nat.zero_add, List.getD_eq_getElem?_getD, List.getElem?_eq_getElem hk,
    Option.getD_some]

section Stores
variable {walk : ℕ → Option ℕ} {ws : List (ℕ × UInt8)} {m k : Memory}

variable (walk) in
theorem storeAll_total (h : ∀ w ∈ ws, ∃ x, walk w.1 = some x) (m : Memory) :
    ∃ k, storeAll walk ws m = some k := by
  induction ws generalizing m with
  | nil => exact ⟨m, rfl⟩
  | cons w ws ih =>
    obtain ⟨x, hx⟩ := h w (List.mem_cons_self ..)
    obtain ⟨k, hk⟩ := ih (fun v hv => h v (List.mem_cons_of_mem _ hv)) (Function.update m x w.2)
    refine ⟨k, ?_⟩
    unfold storeAll
    rw [List.foldlM_cons, hx]
    exact hk

theorem storeAll_lastAt {va x : ℕ} (hva : walk va = some x)
    (hinj : ∀ w ∈ ws, walk w.1 = some x → w.1 = va) (h : storeAll walk ws m = some k) :
    k x = lastAt ws va (m x) := by
  induction ws generalizing m with
  | nil =>
    obtain rfl := Option.some.inj h
    rfl
  | cons w ws ih =>
    obtain ⟨m1, hm1, h⟩ := Option.bind_eq_some_iff.mp h
    obtain ⟨pa, hpa, rfl⟩ := Option.map_eq_some_iff.mp hm1
    rw [ih (fun v hv => hinj v (List.mem_cons_of_mem _ hv)) h, lastAt_cons]
    by_cases heq : w.1 = va
    · rw [heq, hva] at hpa
      rw [if_pos heq, ← Option.some.inj hpa, Function.update_self]
    · have hne : x ≠ pa := by
        rintro rfl
        exact heq (hinj w (List.mem_cons_self ..) hpa)
      rw [if_neg heq, Function.update_of_ne hne]

variable {buf i : ℕ} {d : LlfContents} {ph : LlfPhdr}

/-- The stores for a segment go to its own bytes. -/
theorem segmentStores_addr (hend : ph.vaddr + ph.memsz ≤ initialStackFloor)
    (hfile : d.filesz i ≤ ph.memsz) {w : ℕ × UInt8} (hw : w ∈ segmentStores buf d i ph) :
    ∃ n < ph.memsz, w.1 = ph.vaddr + n := by
  have hsmall : initialStackFloor < 4294967296 := by decide
  unfold segmentStores at hw
  split at hw
  next => exact absurd hw (by simp)
  next =>
    rcases List.mem_append.mp hw with hw | hw
    · obtain ⟨n, hn, rfl⟩ := List.mem_map.mp hw
      have hn := List.mem_range.mp hn
      exact ⟨n, hn, u32_of_lt (by omega)⟩
    · split at hw
      next =>
        unfold memcpyStores at hw
        split at hw
        next => exact absurd hw (by simp)
        next =>
          obtain ⟨n, hn, rfl⟩ := List.mem_map.mp hw
          have hn := List.mem_range.mp hn
          exact ⟨n, by omega, u32_of_lt (by omega)⟩
      next => exact absurd hw (by simp)

/-- What the stores for a segment leave: the bytes of the file, and zeros behind them. -/
theorem segmentStores_last (hnull : ph.type ≠ llfSegNull)
    (htype : ph.type = llfSegLoad ↔ 0 < d.filesz i)
    (hend : ph.vaddr + ph.memsz ≤ initialStackFloor) (hfile : d.filesz i ≤ ph.memsz)
    (hsrc : 0 < d.filesz i → ph.vaddr ≠ u32 (buf + d.offset i)) {n : ℕ} (hn : n < ph.memsz)
    (b : UInt8) : lastAt (segmentStores buf d i ph) (ph.vaddr + n) b =
      if n < d.filesz i then d.bytes (d.offset i + n) else 0 := by
  have hsmall : initialStackFloor < 4294967296 := by decide
  have haddr : ∀ j, j < ph.memsz → u32 (ph.vaddr + j) = ph.vaddr + j := fun j hj =>
    u32_of_lt (by omega)
  have hinj : ∀ j, j < ph.memsz → u32 (ph.vaddr + j) = u32 (ph.vaddr + n) → j = n := by
    intro j hj heq
    rw [haddr j hj, haddr n hn] at heq
    omega
  have hclear : lastAt (memclrStores ph.vaddr ph.memsz) (ph.vaddr + n) b = 0 := by
    unfold memclrStores
    rw [← haddr n hn]
    exact lastAt_range (fun j => u32 (ph.vaddr + j)) (fun _ => (0 : UInt8)) hn hinj b
  unfold segmentStores
  rw [if_neg hnull, lastAt_append, hclear]
  by_cases hload : 0 < d.filesz i
  · rw [if_pos ⟨htype.mpr hload, hload⟩, memcpyStores, if_neg (hsrc hload)]
    by_cases hin : n < d.filesz i
    · rw [if_pos hin, ← haddr n hn]
      exact lastAt_range (fun j => u32 (ph.vaddr + j)) (fun j => d.bytes (d.offset i + j)) hin
        (fun j hj => hinj j (by omega)) 0
    · rw [if_neg hin]
      refine lastAt_of_ne (fun w hw => ?_) 0
      obtain ⟨j, hj, rfl⟩ := List.mem_map.mp hw
      have hj := List.mem_range.mp hj
      rw [haddr j (by omega)]
      omega
  · rw [if_neg fun h => hload h.2, if_neg (by omega), lastAt_nil]

end Stores

/-- The header that a segment has in the file. -/
def Segment.header (s : Segment) : LlfPhdr := ⟨s.type, s.vaddr, s.memsz⟩

section Image
variable {m : Memory} {buf size entry : ℕ} {segments : List Segment} {s : Segment}

theorem LlfPy.ImageAt.phdrs (h : LlfPy.ImageAt m buf size entry segments) :
    (llfAt m buf).phdrs = segments.map Segment.header := by
  refine List.ext_getElem? fun i => ?_
  unfold llfAt
  dsimp only
  rw [List.getElem?_map, List.getElem?_map, h.phCount]
  by_cases hi : i < segments.length
  · rw [List.getElem?_range hi, List.getElem?_eq_getElem hi, Option.map_some, Option.map_some,
      (h.phdr i _ (List.getElem?_eq_getElem hi)).1]
    rfl
  · rw [List.getElem?_eq_none (by rw [List.length_range]; omega),
      List.getElem?_eq_none (Nat.le_of_not_lt hi)]
    rfl

/-- The stores of the loader leave the segments' data, and zeros behind it. -/
theorem loadStores_last (hp : Placeable segments) (h : LlfPy.ImageAt m 0 size entry segments)
    (hlow : kernelVa ≤ buf) (hfit : buf + size < 4294967296) (hs : s ∈ segments) {n : ℕ}
    (hn : n < s.memsz) (b : UInt8) :
    lastAt (loadStores buf (llfContentsAt m 0) (llfAt m 0).phdrs) (s.vaddr + n) b =
      s.data.getD n 0 := by
  have hget (ph : LlfPhdr) (i : ℕ) (hmem : (ph, i) ∈ (segments.map Segment.header).zipIdx) :
      ∃ t, segments[i]? = some t ∧ ph = t.header := by
    have hi : (segments.map Segment.header)[i]? = some ph := List.mem_zipIdx_iff_getElem?.mp hmem
    rw [List.getElem?_map] at hi
    obtain ⟨t, ht, rfl⟩ := Option.map_eq_some_iff.mp hi
    exact ⟨t, ht, rfl⟩
  have hfilesz (i : ℕ) (t : Segment) (ht : segments[i]? = some t) :
      (llfContentsAt m 0).filesz i = t.filesz := (h.phdr i t ht).2
  -- a segment's own stores leave its data
  have hown (i : ℕ) (t : Segment) (ht : segments[i]? = some t) (n : ℕ) (hn : n < t.memsz)
      (b : UInt8) : lastAt (segmentStores buf (llfContentsAt m 0) i t.header) (t.vaddr + n) b =
        t.data.getD n 0 := by
    have hmem := List.mem_of_getElem? ht
    have hfile := hfilesz i t ht
    change lastAt _ (t.header.vaddr + n) b = _
    rw [segmentStores_last (hp.typed t hmem).1 (by rw [hfile]; exact (hp.typed t hmem).2)
      (hp.below t hmem) (by rw [hfile]; exact hp.shrinks t hmem) ?_ hn, hfile]
    · split
      next hin =>
        have hlen : n < t.data.length := by rwa [hp.filled t hmem]
        rw [List.getD_eq_getElem?_getD, List.getElem?_eq_getElem hlen, Option.getD_some,
          ← h.data i t ht n hin hlen]
        simp only [llfContentsAt, Nat.zero_add]
      next hout =>
        rw [List.getD_eq_getElem?_getD, List.getElem?_eq_none, Option.getD_none]
        rw [hp.filled t hmem]
        omega
    · intro hpos heq
      have hend := h.inFile i t ht (by rwa [hfile] at hpos)
      have hbelow := hp.below t hmem
      have hoff : (llfContentsAt m 0).offset i = (phdrAt m (phdrAddr m 0 i)).offset := rfl
      rw [hoff, u32_of_lt (by omega)] at heq
      unfold initialStackFloor procStackTop procStackInitPages pageSize at hbelow
      unfold kernelVa at hlow
      have hvaddr : t.header.vaddr = t.vaddr := rfl
      omega
  rw [h.phdrs]
  unfold loadStores
  obtain ⟨i₀, hi₀, hat⟩ := List.getElem_of_mem hs
  have hsome : segments[i₀]? = some s := by rw [List.getElem?_eq_getElem hi₀, hat]
  refine lastAt_flatMap (fun x hx => ?_) ⟨(s.header, i₀), ?_, fun b => hown i₀ s hsome n hn b⟩ b
  · obtain ⟨ph, i⟩ := x
    obtain ⟨t, ht, rfl⟩ := hget ph i hx
    by_cases hii : i = i₀
    · subst hii
      obtain rfl : t = s := by rw [ht] at hsome; exact Option.some.inj hsome
      exact .inr fun b => hown i t ht n hn b
    · left
      intro w hw heq
      have hmem := List.mem_of_getElem? ht
      obtain ⟨j, hj, hw⟩ : ∃ j < t.memsz, w.1 = t.vaddr + j := segmentStores_addr
        (hp.below t hmem) (by rw [hfilesz i t ht]; exact hp.shrinks t hmem) hw
      obtain ⟨hi, rfl⟩ := List.getElem?_eq_some_iff.mp ht
      subst hat
      rcases Nat.lt_or_gt_of_ne hii with hlt | hgt
      · have := List.pairwise_iff_getElem.mp hp.apart i i₀ hi hi₀ hlt
        omega
      · have := List.pairwise_iff_getElem.mp hp.apart i₀ i hi₀ hi hgt
        omega
  · rw [List.mem_zipIdx_iff_getElem?, List.getElem?_map, hsome]
    rfl

theorem loadStores_addr (hp : Placeable segments) (h : LlfPy.ImageAt m 0 size entry segments)
    {w : ℕ × UInt8} (hw : w ∈ loadStores buf (llfContentsAt m 0) (llfAt m 0).phdrs) :
    ∃ s ∈ segments, ∃ n < s.memsz, w.1 = s.vaddr + n := by
  rw [h.phdrs] at hw
  obtain ⟨⟨ph, i⟩, hmem, hw⟩ := List.mem_flatMap.mp hw
  have hi : (segments.map Segment.header)[i]? = some ph := List.mem_zipIdx_iff_getElem?.mp hmem
  rw [List.getElem?_map] at hi
  obtain ⟨s, hs, rfl⟩ := Option.map_eq_some_iff.mp hi
  have hin := List.mem_of_getElem? hs
  have hfile : (llfContentsAt m 0).filesz i = s.filesz := (h.phdr i s hs).2
  obtain ⟨n, hn, hw⟩ := segmentStores_addr (hp.below s hin)
    (by rw [hfile]; exact hp.shrinks s hin) hw
  exact ⟨s, hin, n, hn, hw⟩

end Image

/-- The pages that the segments touch. -/
def SegmentPage (segments : List Segment) (q : ℕ) : Prop :=
  ∃ s ∈ segments, TouchedBy s.vaddr s.memsz q

/-- The space reads the data of each segment, and zeros behind it. -/
def ImageReads (kpb : ℕ) (vm : Vm) (pgd : ℕ) (m : Memory) (segments : List Segment) : Prop :=
  ∀ s ∈ segments, ∀ n < s.memsz, userRead kpb vm pgd m (s.vaddr + n) = some (s.data.getD n 0)

/-- A space with nothing but the segments, loaded at `k`. -/
structure ImageLoaded (kpb : ℕ) (vm : Vm) (pgd : ℕ) (m : Memory) (segments : List Segment) :
    Prop where
  reads : ImageReads kpb vm pgd m segments
  only : ∀ va < procUserVaTop, PageMapped kpb vm pgd va → SegmentPage segments (va / pageSize)

/-- A space with the segments and the initial stack, and nothing else. -/
structure ImageStacked (kpb : ℕ) (vm : Vm) (pgd : ℕ) (m : Memory) (segments : List Segment) :
    Prop where
  reads : ImageReads kpb vm pgd m segments
  mapped : ∀ va < procUserVaTop, (userAddr kpb vm pgd va).isSome ↔
    SegmentPage segments (va / pageSize) ∨ InInitialStack va

section Load
variable {kpb : ℕ} {tr : ℕ → Option ℕ} {a b c : Vm} {B : List Client} {pgd entry : ℕ}
  {segments : List Segment} {f : Memory} {length : ℕ} {m k : Memory}

theorem ImageReads.of_tables (h : ImageReads kpb b pgd k segments) (h1 : c.l1 = b.l1)
    (h2 : c.l2 = b.l2) : ImageReads kpb c pgd k segments := by
  intro s hs n hn
  rw [← h s hs n hn]
  simp only [userRead, userAddr, pageAt, tableOf, pageOf, h1, h2]

theorem ImageLoaded.of_tables (h : ImageLoaded kpb b pgd k segments) (h1 : c.l1 = b.l1)
    (h2 : c.l2 = b.l2) : ImageLoaded kpb c pgd k segments := by
  refine ⟨h.reads.of_tables h1 h2, fun va hva hpage => h.only va hva ?_⟩
  simpa only [PageMapped, pageAt, tableOf, pageOf, h1, h2] using hpage

theorem ImageStacked.of_tables (h : ImageStacked kpb b pgd k segments) (h1 : c.l1 = b.l1)
    (h2 : c.l2 = b.l2) : ImageStacked kpb c pgd k segments := by
  refine ⟨h.reads.of_tables h1 h2, fun va hva => ?_⟩
  rw [← h.mapped va hva]
  simp only [userAddr, pageAt, tableOf, pageOf, h1, h2]

theorem ImageReads.mapped (h : ImageReads kpb b pgd k segments) (hp : Placeable segments) {va : ℕ}
    (hpage : SegmentPage segments (va / pageSize)) : PageMapped kpb b pgd va := by
  obtain ⟨s, hs, hfrom, hto⟩ := hpage
  have hpos := hp.sized s hs
  -- a byte of the segment that lies in the page
  obtain ⟨n, hn, hsame⟩ : ∃ n < s.memsz, va / pageSize = (s.vaddr + n) / pageSize := by
    refine ⟨va / pageSize * pageSize - s.vaddr, ?_, ?_⟩ <;>
    · unfold pageSize at *
      omega
  obtain ⟨x, hx, -⟩ := Option.map_eq_some_iff.mp (h s hs n hn)
  obtain ⟨mb, -, i, -, pa, hpa, -, rfl, rfl⟩ := userAddr_some hx
  exact PageMapped.of_page ⟨pa, hpa⟩ hsame

theorem floor_lt_top : initialStackFloor < procUserVaTop := by decide

/-- The load of a packed file to an empty space never faults; where it succeeds the space reads
the segments. -/
theorem FormedSpace.llfLoadMem (hk : kpb < 4294967296) (hal : kpb % 1024 = 0) (ha : PmmOk a.pmm)
    (hp : Placeable segments)
    (himg : LlfPy.ImageAt f 0 length entry segments)
    (h : FormedSpace kpb a b B pgd) (hempty : ∀ mb, tableOf kpb b pgd mb = none) {buf size : ℕ}
    (hlow : kernelVa ≤ buf) (hfit : buf + size < 4294967296) (hsize : length ≤ size) (m : Memory) :
    ∃ c k e, Leg.llfLoadMem kpb tr pgd (llfAt f 0) (llfContentsAt f 0) buf size b m =
        some (c, k, e) ∧ Space kpb a c B pgd ∧
      ∀ x, e = some x → x = entry ∧ ImageLoaded kpb c pgd k segments := by
  have hheader := himg.header
  have hfloor := floor_lt_top
  have hphs : ∀ ph ∈ (llfAt f 0).phdrs, ph.type ≠ llfSegNull →
      ph.vaddr + ph.memsz ≤ procUserVaTop := by
    intro ph hph _
    rw [himg.phdrs] at hph
    obtain ⟨s, hs, rfl⟩ := List.mem_map.mp hph
    exact (hp.below s hs).trans (Nat.le_of_lt hfloor)
  obtain ⟨c, ok, hmap, hext⟩ := h.space.mapSegments hk hal (le_refl _) (by decide) hphs
  unfold Leg.llfLoadMem
  rw [if_neg (by omega), if_neg (not_not.mpr (show (llfAt _ 0).magic = _ from himg.magic)), hmap]
  simp only [Option.bind_eq_bind, Option.bind_some]
  cases ok with
  | false => exact ⟨c, m, none, rfl, hext.space, fun x hx => absurd hx (by simp)⟩
  | true =>
    obtain ⟨⟨hnow, -⟩, hpages, honly⟩ := h.mapSegments hk hal hphs hmap
    have hmapped (s : Segment) (hs : s ∈ segments) (n : ℕ) (hn : n < s.memsz) :
        s.vaddr + n < procUserVaTop ∧ ∃ x, userAddr kpb c pgd (s.vaddr + n) = some x := by
      have hbelow := hp.below s hs
      have hva : s.vaddr + n < procUserVaTop := by omega
      refine ⟨hva, PageMapped.userAddr (hpages s.header ?_ (hp.typed s hs).1 n hn) hva⟩
      rw [himg.phdrs]
      exact List.mem_map_of_mem hs
    have hwrites : ∀ w ∈ loadStores buf (llfContentsAt f 0) (llfAt f 0).phdrs,
        w.1 < procUserVaTop ∧ ∃ x, userAddr kpb c pgd w.1 = some x := by
      intro w hw
      obtain ⟨s, hs, n, hn, heq⟩ := loadStores_addr hp himg hw
      rw [heq]
      exact hmapped s hs n hn
    obtain ⟨k, hk⟩ := storeAll_total (loadAddr kpb tr c pgd) (fun w hw => by
      obtain ⟨hva, x, hx⟩ := hwrites w hw
      exact ⟨x, by rw [loadAddr, if_pos hva, hx]⟩) m
    refine ⟨c, k, some entry, ?_, hext.space, fun x hx => ⟨(Option.some.inj hx).symm, ?_, ?_⟩⟩
    · rw [if_neg (by simp), hk]
      have hentry : (llfAt f 0).entry = entry := himg.entry
      simp [hentry]
    swap
    · intro va hva hpage
      by_contra hno
      have hfree : ¬∃ ph ∈ (llfAt f 0).phdrs, ph.type ≠ llfSegNull ∧
          TouchedBy ph.vaddr ph.memsz (va / pageSize) := by
        rintro ⟨ph, hph, -, ht⟩
        rw [himg.phdrs] at hph
        obtain ⟨s, hs, rfl⟩ := List.mem_map.mp hph
        exact hno ⟨s, hs, ht⟩
      obtain ⟨pa, hpa⟩ := honly va hva hfree hpage
      rw [pageAt, hempty] at hpa
      exact absurd hpa (by simp)
    intro s hs n hn
    obtain ⟨hva, x, hx⟩ := hmapped s hs n hn
    have haligned : ∀ pa ∈ spacePages kpb c pgd, pa % pageSize = 0 := fun pa hpa =>
      (Holds.fresh_page ha hext.space hpa).1
    unfold userRead
    rw [hx, Option.map_some, storeAll_lastAt
      (show loadAddr kpb tr c pgd (s.vaddr + n) = some x by rw [loadAddr, if_pos hva, hx]) ?_ hk]
    · exact congrArg some (loadStores_last hp himg hlow (by omega) hs hn _)
    · intro w hw hwx
      rw [loadAddr, if_pos (hwrites w hw).1] at hwx
      exact userAddr_inj haligned (Holds.nodup hext.space) (Space.tables_nodup hext.space) hwx hx

variable (tr) in
/-- `load_user_image` loads the image without a fault, and gives its buffer back. -/
theorem FormedSpace.loadUserImageMem (hk : kpb < 4294967296) (hal : kpb % 1024 = 0)
    (ha : PmmOk a.pmm) (hp : Placeable segments) (executable readable : Bool)
    (himg : readable = true → LlfPy.ImageAt f 0 length entry segments)
    (hsize : length + 511 < 4294967296) (h : FormedSpace kpb a b B pgd)
    (hempty : ∀ mb, tableOf kpb b pgd mb = none) (m : Memory) :
    ∃ c k e, Leg.loadUserImageMem kpb tr pgd (some (.ofMemory f length executable readable))
        (llfContentsAt f 0) b m = some (c, k, e) ∧ Space kpb a c B pgd ∧
      ∀ x, e = some x → x = entry ∧ ImageLoaded kpb c pgd k segments := by
  have hnone {c : Vm} {k : Memory} : ∀ x, (none : Option ℕ) = some x →
      x = entry ∧ ImageLoaded kpb c pgd k segments := fun x hx => absurd hx (by simp)
  simp only [Leg.loadUserImageMem]
  by_cases hexec : executable = true
  swap
  · exact ⟨b, m, none, if_pos hexec, h.space, hnone⟩
  rw [if_neg (not_not.mpr
    (show (FsFile.ofMemory f length executable readable).executable = true from hexec))]
  have hwhole : length ≤ alignUp length 512 := by
    have hup : alignUp length 512 = u32 (length + 512 - 1) / 512 * 512 :=
      alignUp_two_pow (k := 9) (by decide)
    unfold u32 at hup
    omega
  have hroom := alignUp_sector_lt length
  rw [show (FsFile.ofMemory f length executable readable).size = length from rfl]
  generalize alignUp length 512 = llfSize at *
  rcases h.space.kmalloc hroom with hr | ⟨b1, buf, hr, hbuf, hs1, h1, h2⟩
  · rw [hr]
    exact ⟨b, m, none, rfl, h.space, hnone⟩
  rw [hr]
  simp only [Option.bind_eq_bind, Option.bind_some, hbuf, if_false]
  have hformed : Formed kpb b1 pgd := (KeepsWords.of_tables h1 h2).formed h.formed
  obtain ⟨c, k, e, hload, hs, hreads⟩ : ∃ c k e, readAndLoadMem kpb tr pgd
      (.ofMemory f length executable readable) (llfContentsAt f 0) buf llfSize b1 m =
        some (c, k, e) ∧
      Space kpb a c (⟨buf, llfSize⟩ :: B) pgd ∧
      ∀ x, e = some x → x = entry ∧ ImageLoaded kpb c pgd k segments := by
    unfold readAndLoadMem
    by_cases hread : readable = true
    · rw [if_pos (show (FsFile.ofMemory f length executable readable).readable = true from hread)]
      -- the buffer lies in the kernel's heap
      have hlive : (⟨buf, llfSize⟩ : Client) ∈ b1.live := (Holds.live hs1).mem_iff.mpr
        (List.mem_append_left _ (List.mem_append_right _ (List.mem_cons_self ..)))
      obtain ⟨-, hbase, hend, htop⟩ := (Holds.ok hs1).heap.mem_bounds hlive
      dsimp only at hbase hend
      exact FormedSpace.llfLoadMem hk hal ha hp (himg hread) ⟨hs1, hformed⟩
        (fun mb => (tableOf_congr (by rw [h1]) mb).trans (hempty mb))
        ((Holds.ok hs1).high.trans hbase) (by omega) hwhole m
    · rw [if_neg (show ¬ (FsFile.ofMemory f length executable readable).readable = true from hread)]
      exact ⟨b1, m, none, rfl, hs1, hnone⟩
  rw [hload]
  simp only [Option.bind_some]
  obtain ⟨d, hd, hd', h1', h2'⟩ :=
    (Holds.perm hs List.perm_middle (.refl _)).free (List.mem_cons_self ..)
  rw [List.erase_cons_head] at hd'
  rw [hd]
  refine ⟨d, k, e, rfl, ?_, fun x hx => ⟨(hreads x hx).1, ((hreads x hx).2).of_tables h1' h2'⟩⟩
  unfold Space
  rw [spaceBlocks_congr (show d.l1 pgd = c.l1 pgd by rw [h1']),
    spacePages_congr (show d.l1 pgd = c.l1 pgd by rw [h1']) fun _ _ => by rw [h2']]
  exact hd'

/-- `setup_initial_stack` leaves the rest of the struct alone. -/
theorem addStackPages_entry (n : ℕ) {p q : Process} {ok : Bool}
    (h : addStackPages kpb n b p = some (c, q, ok)) : q.entry = p.entry := by
  induction n generalizing b p with
  | zero =>
    obtain ⟨-, rfl, -⟩ : b = c ∧ p = q ∧ true = ok := by simpa [addStackPages] using h
    rfl
  | succ n ih =>
    obtain ⟨⟨d, r, okr⟩, hadd, h⟩ := Option.bind_eq_some_iff.mp h
    have hr : r.entry = p.entry := by
      rw [processAddPage_eq] at hadd
      have hsecond {d' : Vm} {p' : Process} (h' : mapStackPage p.nextStackVa d' p' = (d, r, okr)) :
          r.entry = p'.entry := by
        unfold mapStackPage at h'
        split at h'
        next => rw [← (Prod.mk.inj (Prod.mk.inj h').2).1]
        next => rw [← (Prod.mk.inj (Prod.mk.inj h').2).1]
      split at hadd
      next =>
        obtain ⟨t, -, hadd⟩ := Option.map_eq_some_iff.mp hadd
        split at hadd
        next => rw [← (Prod.mk.inj (Prod.mk.inj hadd).2).1]
        next =>
          have hentry := hsecond hadd
          exact hentry
      next => exact hsecond (Option.some.inj hadd)
    dsimp only at h
    split at h
    next => rw [ih h, hr]
    next =>
      obtain ⟨-, rfl, -⟩ : d = c ∧ r = q ∧ false = ok := by simpa using h
      exact hr

theorem setupInitialStack_entry {p q : Process} {ok : Bool}
    (h : setupInitialStack kpb b p = some (c, q, ok)) : q.entry = p.entry := by
  obtain ⟨⟨d, pt⟩, -, h⟩ := Option.bind_eq_some_iff.mp h
  dsimp only at h
  split at h
  next =>
    obtain ⟨-, rfl, -⟩ : d = c ∧ _ = q ∧ false = ok := by simpa using h
    rfl
  next =>
    have hentry := addStackPages_entry _ h
    exact hentry

theorem ImageLoaded.stack (hk : kpb < 4294967296) (hal : kpb % 1024 = 0)
    (hp : Placeable segments) (hs : Space kpb a b B pgd) {p q : Process} (hpgd : p.pgd = pgd)
    (hstack : setupInitialStack kpb b p = some (c, q, true))
    (h : ImageLoaded kpb b pgd k segments) : ImageStacked kpb c pgd k segments := by
  have hfloor := floor_lt_top
  refine ⟨fun s hs' n hn => ?_, fun va hva => ?_⟩
  · have hbelow := hp.below s hs'
    obtain ⟨hout, -⟩ := hs.setupInitialStack_maps hk hal hpgd hstack
      (show s.vaddr + n < procUserVaTop by omega)
    unfold userRead
    rw [hout (fun hin => absurd hin.1 (by omega))]
    exact h.reads s hs' n hn
  · obtain ⟨hout, hin⟩ := hs.setupInitialStack_maps hk hal hpgd hstack hva
    by_cases hstk : InInitialStack va
    · exact iff_of_true ((userAddr_isSome hva).mpr (hin rfl hstk)) (.inr hstk)
    · rw [hout hstk, userAddr_isSome hva]
      exact ⟨fun hpage => .inl (h.only va hva hpage),
        fun hpage => h.reads.mapped hp (hpage.resolve_right hstk)⟩

variable (tr) in
/-- `process_create` of a packed file never faults, and what it makes reads the segments. -/
theorem createSpaceMem_reads (hk : kpb < 4294967296) (hal : kpb % 1024 = 0) (hok : VmOk a)
    (hp : Placeable segments) (executable readable : Bool)
    (himg : readable = true → LlfPy.ImageAt f 0 length entry segments)
    (hsize : length + 511 < 4294967296) (proc : ℕ → Process)
    (m : Memory) : ∃ c k made, createSpaceMem kpb tr (some (.ofMemory f length executable readable))
        (llfContentsAt f 0) proc a m = some (c, k, made) ∧
      ∀ p q, made = some (p, q) → q.entry = entry ∧ ImageStacked kpb c q.pgd k segments := by
  unfold createSpaceMem
  rcases allocProcess_holds kpb hok with ⟨b, hb, -⟩ | ⟨b, p, pgd, hb, -, -, hs, hempty⟩
  · rw [hb]
    exact ⟨b, m, none, rfl, fun _ _ hr => absurd hr (by simp)⟩
  have hformed : Formed kpb b pgd := (allocProcess_words kpb hb).2 p pgd rfl
  rw [hb]
  simp only [Option.bind_eq_bind, Option.bind_some]
  obtain ⟨c, k, e, hload, hsc, hreads⟩ := FormedSpace.loadUserImageMem tr hk hal hok.pmm hp
    executable readable himg hsize ⟨hs, hformed⟩ hempty m
  rw [hload]
  simp only [Option.bind_some]
  cases e with
  | none =>
    obtain ⟨d, hd, -⟩ := Space.processFree hsc
    rw [hd]
    exact ⟨d, k, none, rfl, fun _ _ hr => absurd hr (by simp)⟩
  | some x =>
    obtain ⟨rfl, himage⟩ := hreads x rfl
    obtain ⟨d, q, ok, hd, ⟨L, hholds⟩, hq⟩ := hsc.setupStack hk hal
      (p := { proc p with pgd := pgd, entry := x }) rfl
    simp only [hd, Option.bind_some]
    cases ok with
    | false =>
      have hfront := hholds.perm
        (show List.Perm _ (⟨p, processSize⟩ :: spaceBlocks kpb d pgd ++ []) by
          rw [List.append_nil]
          exact List.perm_append_singleton _ _) (.refl _)
      obtain ⟨e, he, -⟩ := hfront.processFree
      rw [if_pos (by simp)]
      exact ⟨e, k, none, by rw [he]; rfl, fun _ _ hr => absurd hr (by simp)⟩
    | true =>
      refine ⟨d, k, some (p, q), rfl, fun p' q' hr => ?_⟩
      obtain ⟨rfl, rfl⟩ := Prod.mk.inj (Option.some.inj hr)
      refine ⟨setupInitialStack_entry hd, ?_⟩
      rw [hq]
      exact himage.stack hk hal hp hsc rfl hd

variable (tr) in
/-- The new space of `process_replace` is loaded without a fault. -/
theorem replaceSpaceMem_reads (hk : kpb < 4294967296) (hal : kpb % 1024 = 0) (hok : VmOk a)
    (hp : Placeable segments) (executable readable : Bool)
    (himg : readable = true → LlfPy.ImageAt f 0 length entry segments)
    (hsize : length + 511 < 4294967296) (m : Memory) :
    ∃ c k made, replaceSpaceMem kpb tr (some (.ofMemory f length executable readable))
        (llfContentsAt f 0) a m = some (c, k, made) ∧
      ∀ pgd x tmp, made = some (pgd, x, tmp) → x = entry ∧ Leaky kpb a c [] pgd ∧
        ImageStacked kpb c pgd k segments := by
  unfold replaceSpaceMem
  rcases (Holds.refl hok).procTable kpb with hr | ⟨b, pgd, hr, hne, hs, hempty⟩
  · rw [hr]
    exact ⟨a, m, none, rfl, fun _ _ _ hr => absurd hr (by simp)⟩
  have hformed : Formed kpb b pgd := (mmuAllocProcTable_words kpb hr).2 hne
  rw [hr]
  simp only [Option.bind_eq_bind, Option.bind_some, hne, if_false]
  obtain ⟨c, k, e, hload, hsc, hreads⟩ := FormedSpace.loadUserImageMem tr hk hal hok.pmm hp
    executable readable himg hsize ⟨hs, hformed⟩ hempty m
  rw [hload]
  simp only [Option.bind_some]
  cases e with
  | none =>
    have hpgd : (⟨pgd, procTableSize⟩ : Client) ∈ spaceBlocks kpb c pgd ++ [] :=
      List.mem_append_left _ (List.mem_cons_self ..)
    obtain ⟨d, hd, -⟩ := Holds.free hsc hpgd
    exact ⟨d, k, none, by simp [show c.kfree pgd = _ from hd],
      fun _ _ _ hr => absurd hr (by simp)⟩
  | some x =>
    obtain ⟨rfl, himage⟩ := hreads x rfl
    obtain ⟨d, q, ok, hd, hleaky, hq⟩ := hsc.setupStack hk hal
      (p := { (default : Process) with pgd := pgd }) rfl
    simp only [hd, Option.bind_some]
    cases ok with
    | false =>
      obtain ⟨L, hs'⟩ := hleaky
      obtain ⟨e, f, he, hf, -⟩ := Space.free hs'
      rw [if_pos (by simp)]
      exact ⟨f, k, none, by rw [he, Option.bind_some, hf]; rfl,
        fun _ _ _ hr => absurd hr (by simp)⟩
    | true =>
      refine ⟨d, k, some (pgd, x, q), rfl, fun pgd' x' tmp' hmade => ?_⟩
      obtain ⟨rfl, hrest⟩ := Prod.mk.inj (Option.some.inj hmade)
      obtain ⟨rfl, -⟩ := Prod.mk.inj hrest
      exact ⟨rfl, hleaky, himage.stack hk hal hp hsc rfl hd⟩

end Load

/-- The process at `p` starts at the executable's entry point, reads its memory image, and has no
page mapped but those of the image and the initial stack. -/
structure RunsImage (kpb : ℕ) (t : System) (m : Memory) (p : ℕ) (elf : List UInt8)
    (phdrs : List ElfPhdr) : Prop where
  entry : (t.sched.proc p).entry = LlfPy.elfWord elf 0x18
  bytes : ∀ ph ∈ phdrs, ph.Loads → ∀ n < ph.memsz,
    userRead kpb t.vm (t.sched.proc p).pgd m (ph.vaddr + n) = some (ph.imageByte elf n)
  mapped : ∀ va < procUserVaTop, (userAddr kpb t.vm (t.sched.proc p).pgd va).isSome ↔
    (∃ ph ∈ phdrs, ph.Loads ∧ TouchedBy ph.vaddr ph.memsz (va / pageSize)) ∨ InInitialStack va

section Pack
variable {kpb : ℕ} {tr : ℕ → Option ℕ} {s : System} {elf bytes : List UInt8}
  {phdrs : List ElfPhdr} {f : Memory}

/-- A packed executable that fits. -/
structure Packed (elf : List UInt8) (phdrs : List ElfPhdr) (bytes : List UInt8) : Prop where
  headers : LlfPy.elfPhdrs elf = some phdrs
  fits : ElfFits elf phdrs
  packed : (LlfPy.parseElf elf).bind (fun r => LlfPy.toLlfBytes r.1 r.2) = some bytes
  size : bytes.length + 511 < 4294967296

variable (kpb) in
/-- What the loader finds in a packed executable, and what reading it back means. -/
theorem Packed.image (h : Packed elf phdrs bytes) : ∃ segments, Placeable segments ∧
    (∀ f : Memory, f.Stored 0 bytes →
      LlfPy.ImageAt f 0 bytes.length (LlfPy.elfWord elf 0x18) segments) ∧
    ∀ (t : System) (m : Memory) (p : ℕ), (t.sched.proc p).entry = LlfPy.elfWord elf 0x18 →
      ImageStacked kpb t.vm (t.sched.proc p).pgd m segments → RunsImage kpb t m p elf phdrs := by
  obtain ⟨⟨entry, segments⟩, hparse, hpack⟩ := Option.bind_eq_some_iff.mp h.packed
  obtain ⟨phdrs', hphdrs, rfl, rfl⟩ := LlfPy.parseElf_some hparse
  obtain rfl : phdrs = phdrs' := by
    rw [h.headers] at hphdrs
    exact Option.some.inj hphdrs
  have hplace := LlfPy.placeable h.fits
  have hsize := h.size
  refine ⟨_, hplace, fun f hf => LlfPy.imageAt_of_stored hplace.filled hpack hf (by omega),
    fun t m p hentry himage => ⟨hentry, fun ph hph hloads n hn => ?_,
      fun va hva => (himage.mapped va hva).trans (or_congr_left ?_)⟩⟩
  · obtain ⟨s, hs⟩ := LlfPy.segmentOf_loads elf hloads
    obtain ⟨-, haddr, hmem, -⟩ := LlfPy.segmentOf_some hs
    rw [← haddr, himage.reads s (List.mem_filterMap.mpr ⟨ph, hph, hs⟩) n (by rwa [hmem]),
      LlfPy.segment_byte hs]
  · constructor
    · rintro ⟨s, hs, htouch⟩
      obtain ⟨ph, hph, hsome⟩ := List.mem_filterMap.mp hs
      obtain ⟨hloads, haddr, hmem, -⟩ := LlfPy.segmentOf_some hsome
      exact ⟨ph, hph, hloads, haddr ▸ hmem ▸ htouch⟩
    · rintro ⟨ph, hph, hloads, htouch⟩
      obtain ⟨s, hs⟩ := LlfPy.segmentOf_loads elf hloads
      obtain ⟨-, haddr, hmem, -⟩ := LlfPy.segmentOf_some hs
      exact ⟨s, List.mem_filterMap.mpr ⟨ph, hph, hs⟩, by rwa [haddr, hmem]⟩

theorem created_runs (hk : kpb < 4294967296) (hal : kpb % 1024 = 0) (hok : VmOk s.vm)
    (h : Packed elf phdrs bytes) (executable readable : Bool)
    (hf : readable = true → f.Stored 0 bytes) (m : Memory) :
    ∃ t k p, s.processCreateMem kpb tr (some (.ofMemory f bytes.length executable readable))
      (llfContentsAt f 0) m = some (t, k, p) ∧ (p ≠ 0 → RunsImage kpb t k p elf phdrs) := by
  obtain ⟨segments, hplace, himg, hruns⟩ := h.image kpb
  obtain ⟨c, k, made, hspace, hreads⟩ := createSpaceMem_reads tr hk hal hok hplace
    executable readable (fun hread => himg f (hf hread)) h.size s.sched.proc m
  unfold System.processCreateMem
  rw [hspace]
  cases made with
  | none => exact ⟨_, k, 0, rfl, fun h0 => absurd rfl h0⟩
  | some made =>
    obtain ⟨p, q⟩ := made
    obtain ⟨hentry, himage⟩ := hreads p q rfl
    refine ⟨_, k, p, rfl, fun _ => hruns _ k p ?_ ?_⟩
    · simpa using hentry
    · simpa using himage

/-- `process_replace` by a packed executable. -/
theorem replaced_runs (hk : kpb < 4294967296) (hal : kpb % 1024 = 0) {base : Vm}
    (howned : OwnedOk kpb base s) (h : Packed elf phdrs bytes) (executable readable : Bool)
    (hf : readable = true → f.Stored 0 bytes) (pid : ℕ) (m : Memory) :
    ∃ t k ok, s.processReplaceMem kpb tr pid (some (.ofMemory f bytes.length executable readable))
      (llfContentsAt f 0) m = some (t, k, ok) ∧
        (ok = true → RunsImage kpb t k (schedGet s.sched pid) elf phdrs) := by
  obtain ⟨segments, hplace, himg, hruns⟩ := h.image kpb
  unfold System.processReplaceMem
  dsimp only
  split
  next => exact ⟨s, m, false, rfl, fun hok => absurd hok (by decide)⟩
  next hpid =>
  obtain ⟨i, hi, -, -⟩ := schedRemove_schedGet hpid
  generalize schedGet s.sched pid = p at *
  have hmem : p ∈ s.procs := hi ▸ howned.listed i (hi ▸ hpid)
  obtain ⟨c, k, made, hspace, hreads⟩ := replaceSpaceMem_reads tr hk hal howned.holds.ok
    hplace executable readable (fun hread => himg f (hf hread)) h.size m
  rw [hspace]
  cases made with
  | none => exact ⟨_, k, false, rfl, fun hok => absurd hok (by decide)⟩
  | some made =>
    obtain ⟨new, x, tmp⟩ := made
    obtain ⟨rfl, hleaky, himage⟩ := hreads new x tmp rfl
    obtain ⟨d, e, hd, he, -⟩ := howned.swapLeaky (.refl _) hmem hleaky
    obtain ⟨-, hself, -⟩ := replaced_sched s.sched p new (LlfPy.elfWord elf 0x18) tmp.stackPt
      tmp.stackPages
    simp only [Option.bind_eq_bind, Option.bind_some, hd, he]
    refine ⟨_, k, true, rfl, fun _ => hruns _ k p (by rw [hself]; rfl) ?_⟩
    -- what the old space gives back changes no table
    obtain ⟨h1, h2⟩ := freeTables_tables hd
    obtain ⟨h1', h2'⟩ := kfree_tables he
    rw [hself]
    exact himage.of_tables (h1'.trans h1) (h2'.trans h2)

end Pack

/-- In every reachable state, creating or replacing a process from the packed file of an executable
that fits never faults, and where it succeeds the process reads the executable's memory image. -/
theorem countedRun_runs_elf {c : BootConfig} {boot : System} {n : Counted} {ops : List TableOp}
    {elf bytes : List UInt8} {phdrs : List ElfPhdr} (hb : boot.Boot c)
    (hcur : boot.sched.currentProc = 0) (hr : Run (CountedStep c.kernelPhysBase) ⟨boot, 0⟩ ops n)
    (h : Packed elf phdrs bytes) (tr : ℕ → Option ℕ) (executable readable : Bool) (m : Memory) :
    (∃ t k p, n.sys.processCreateMem c.kernelPhysBase tr
        (some (.ofBytes bytes executable readable)) (.ofBytes bytes) m = some (t, k, p) ∧
      (p ≠ 0 → RunsImage c.kernelPhysBase t k p elf phdrs)) ∧
    ∀ pid, ∃ t k ok, n.sys.processReplaceMem c.kernelPhysBase tr pid
        (some (.ofBytes bytes executable readable)) (.ofBytes bytes) m = some (t, k, ok) ∧
      (ok = true → RunsImage c.kernelPhysBase t k (schedGet n.sys.sched pid) elf phdrs) := by
  obtain ⟨hk, hal⟩ := c.kernelPhysBase_bounds
  obtain ⟨⟨base, -, howned⟩, -⟩ := countedRun_owned hb hcur hr
  have hfile (_ : readable = true) := fileMemory_stored bytes
  exact ⟨created_runs hk hal howned.holds.ok h executable readable hfile m,
    fun pid => replaced_runs hk hal howned h executable readable hfile pid m⟩

/-- An executable of eight bytes, four of them in the file. -/
def tinyElf : List UInt8 :=
  LlfPy.elfMagic ++ (List.replicate 20 0 ++ (Memory.le32 0x400000 ++ (Memory.le32 0x34 ++
    (List.replicate 10 0 ++ (Memory.le16 32 ++ (Memory.le16 1 ++ (List.replicate 6 0 ++
      (Memory.le32 1 ++ (Memory.le32 0x54 ++ (Memory.le32 0x400000 ++ (Memory.le32 0 ++
        (Memory.le32 4 ++ (Memory.le32 8 ++ (Memory.le32 5 ++ (Memory.le32 0x1000 ++
          [0xDE, 0xAD, 0xBE, 0xEF])))))))))))))))

/-- Its program header. -/
def tinyPhdr : ElfPhdr := ⟨1, 0x54, 0x400000, 4, 8, 5⟩

theorem tinyElf_packed : ∃ bytes, Packed tinyElf [tinyPhdr] bytes := by
  have hsome : ((LlfPy.parseElf tinyElf).bind fun r => LlfPy.toLlfBytes r.1 r.2).map List.length =
      some 56 := by decide +kernel
  obtain ⟨bytes, hbytes, hlen⟩ := Option.map_eq_some_iff.mp hsome
  refine ⟨bytes, ?_, ⟨?_, ?_, ?_, List.pairwise_singleton _ _⟩, hbytes, by omega⟩
  · rfl
  all_goals
    intro ph hph _
    obtain rfl := List.mem_singleton.mp hph
    decide

theorem tinyElf_runs : ∃ boot n bytes t k p,
    System.Boot highRamConfig boot ∧
    Run (CountedStep highRamConfig.kernelPhysBase) ⟨boot, 0⟩ [] n ∧
    n.sys.processCreateMem highRamConfig.kernelPhysBase (fun _ => none)
      (some (.ofBytes bytes true true)) (.ofBytes bytes) (fun _ => 1) = some (t, k, p) ∧ p ≠ 0 ∧
    RunsImage highRamConfig.kernelPhysBase t k p tinyElf [tinyPhdr] := by
  obtain ⟨bytes, hbytes⟩ := tinyElf_packed
  have hsome : (((LlfPy.parseElf tinyElf).bind fun r => LlfPy.toLlfBytes r.1 r.2).bind fun bytes =>
      (highRamConfig.init fun _ => 0).bind fun g =>
        ((systemOf highRamConfig g).processCreateMem highRamConfig.kernelPhysBase (fun _ => none)
          (some (.ofBytes bytes true true)) (.ofBytes bytes) fun _ => 1).map fun r =>
            decide (r.2.2 ≠ 0)) = some true := by decide +kernel
  rw [hbytes.packed, Option.bind_some] at hsome
  obtain ⟨g, hg, hcreated⟩ := Option.bind_eq_some_iff.mp hsome
  have hboot : (systemOf highRamConfig g).Boot highRamConfig :=
    ⟨by decide +kernel, ⟨_, g, [], ⟨g, []⟩, hg, .nil _, rfl⟩,
      ⟨_, [], _, .nil _, rfl, rfl⟩, fun _ => rfl, rfl⟩
  obtain ⟨⟨t, k, p⟩, hr, hp⟩ := Option.map_eq_some_iff.mp hcreated
  obtain ⟨⟨t', k', p', hr', hruns⟩, -⟩ :=
    countedRun_runs_elf hboot rfl (.nil _) hbytes (fun _ => none) true true fun _ => 1
  rw [hr] at hr'
  obtain ⟨rfl, rfl, rfl⟩ : t = t' ∧ k = k' ∧ p = p' := by simpa using hr'
  have hp := of_decide_eq_true hp
  exact ⟨_, _, bytes, t, k, p, hboot, .nil _, hr, hp, hruns hp⟩

end Leg

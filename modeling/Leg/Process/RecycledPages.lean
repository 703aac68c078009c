import Leg.Process.ForkApart
import Leg.Process.SpaceLeaks

/-! `llf_load` with the bytes it writes, and what a process made from an image can read in pages
that another one used before: the loader clears and fills the segments, and nothing clears the
rest of a page or the pages of the initial stack. -/
namespace Leg
open Runs Slots

def llfSegLoad : ℕ := 1

/-- The fields of `llf_phdr_t` that decide what is written, by the header's index, and the bytes
from the buffer on. -/
structure LlfContents where
  filesz : ℕ → ℕ
  offset : ℕ → ℕ
  bytes : ℕ → UInt8

section Model
variable (kernelPhysBase : ℕ) (tr : ℕ → Option ℕ)

/-- The stores of `memclr`, in order. -/
def memclrStores (dst len : ℕ) : List (ℕ × UInt8) :=
  (List.range len).map fun i => (u32 (dst + i), 0)

/-- The stores of `memcpy`, in order, where `src` reads as `bytes`. -/
def memcpyStores (dst src len : ℕ) (bytes : ℕ → UInt8) : List (ℕ × UInt8) :=
  if dst = src then [] else (List.range len).map fun i => (u32 (dst + i), bytes i)

/-- The stores for one program header in the second loop of `llf_load`. -/
def segmentStores (buf : ℕ) (d : LlfContents) (i : ℕ) (ph : LlfPhdr) : List (ℕ × UInt8) :=
  if ph.type = llfSegNull then []
  else memclrStores ph.vaddr ph.memsz ++
    if ph.type = llfSegLoad ∧ d.filesz i > 0 then
      memcpyStores ph.vaddr (u32 (buf + d.offset i)) (d.filesz i) fun k => d.bytes (d.offset i + k)
    else []

/-- The stores of the second loop of `llf_load`. -/
def loadStores (buf : ℕ) (d : LlfContents) (phdrs : List LlfPhdr) : List (ℕ × UInt8) :=
  phdrs.zipIdx.flatMap fun ph => segmentStores buf d ph.2 ph.1

/-- The stores, where `walk` translates; a `none` is a store to an address that is not mapped. -/
def storeAll (walk : ℕ → Option ℕ) (ws : List (ℕ × UInt8)) (m : Memory) : Option Memory :=
  ws.foldlM (fun m w => (walk w.1).map fun pa => Function.update m pa w.2) m

/-- What the kernel accesses at `va` while `TTBR0` is the table `pgd`; `tr` is its own half. -/
def loadAddr (vm : Vm) (pgd va : ℕ) : Option ℕ :=
  if va < procUserVaTop then userAddr kernelPhysBase vm pgd va else tr va

/-- `llf_load`. -/
def llfLoadMem (pgd : ℕ) (image : Llf) (d : LlfContents) (buf bufSize : ℕ) (vm : Vm)
    (m : Memory) : Option (Vm × Memory × Option ℕ) :=
  if bufSize < llfHeaderSize then some (vm, m, none)
  else if image.magic ≠ llfMagic then some (vm, m, none)
  else do
    let (vm, ok) ← mapSegments kernelPhysBase pgd image.phdrs vm
    if ¬ ok then return (vm, m, none)
    let m ← storeAll (loadAddr kernelPhysBase tr vm pgd) (loadStores buf d image.phdrs) m
    return (vm, m, some image.entry)

def readAndLoadMem (pgd : ℕ) (file : FsFile) (d : LlfContents) (buf llfSize : ℕ) (vm : Vm)
    (m : Memory) : Option (Vm × Memory × Option ℕ) :=
  if file.readable then llfLoadMem kernelPhysBase tr pgd file.image d buf llfSize vm m
  else some (vm, m, none)

/-- `load_user_image`. -/
def loadUserImageMem (pgd : ℕ) (file : Option FsFile) (d : LlfContents) (vm : Vm) (m : Memory) :
    Option (Vm × Memory × Option ℕ) :=
  match file with
  | none => some (vm, m, none)
  | some file =>
    if ¬ file.executable then some (vm, m, none)
    else do
      let llfSize := alignUp file.size 512
      let (vm, buf) ← vm.kmalloc llfSize
      if buf = 0 then return (vm, m, none)
      let (vm, m, entry) ← readAndLoadMem kernelPhysBase tr pgd file d buf llfSize vm m
      let vm ← vm.kfree buf
      return (vm, m, entry)

/-- `process_create` up to the numbering. -/
def createSpaceMem (file : Option FsFile) (d : LlfContents) (proc : ℕ → Process) (vm : Vm)
    (m : Memory) : Option (Vm × Memory × Option (ℕ × Process)) := do
  let (vm, alloc) ← allocProcess vm
  match alloc with
  | none => return (vm, m, none)
  | some (p, pgd) =>
    let (vm, m, entry) ← loadUserImageMem kernelPhysBase tr pgd file d vm m
    match entry with
    | none =>
      let vm ← processFree kernelPhysBase p pgd vm
      return (vm, m, none)
    | some entry =>
      let (vm, q, ok) ← setupInitialStack kernelPhysBase vm
        { proc p with pgd := pgd, entry := entry }
      if ¬ ok then
        let vm ← processFree kernelPhysBase p pgd vm
        return (vm, m, none)
      return (vm, m, some (p, q))

/-- The new address space of `process_replace`. -/
def replaceSpaceMem (file : Option FsFile) (d : LlfContents) (vm : Vm) (m : Memory) :
    Option (Vm × Memory × Option (ℕ × ℕ × Process)) := do
  let (vm, pgd) ← vm.mmuAllocProcTable
  if pgd = 0 then return (vm, m, none)
  let (vm, m, entry) ← loadUserImageMem kernelPhysBase tr pgd file d vm m
  match entry with
  | none =>
    let vm ← vm.kfree pgd
    return (vm, m, none)
  | some entry =>
    let (vm, tmp, ok) ← setupInitialStack kernelPhysBase vm { (default : Process) with pgd := pgd }
    if ¬ ok then
      let vm ← freeTables kernelPhysBase pgd vm
      let vm ← vm.kfree pgd
      return (vm, m, none)
    return (vm, m, some (pgd, entry, tmp))

namespace System
variable (s : System)

/-- `process_create`. -/
def processCreateMem (file : Option FsFile) (d : LlfContents) (m : Memory) :
    Option (System × Memory × ℕ) := do
  let (vm, m, made) ← createSpaceMem kernelPhysBase tr file d s.sched.proc s.vm m
  match made with
  | none => return ({ s with vm := vm }, m, 0)
  | some (p, q) =>
    let proc := { q with
      pid := s.sched.nextPid
      sp := procStackTop - 16
      heapEnd := procHeapStart }
    let sched := { s.sched.write p fun _ => proc with nextPid := u32 (s.sched.nextPid + 1) }
    return ({ s with vm := vm, sched := sched, procs := p :: s.procs }, m, p)

/-- `process_replace`. -/
def processReplaceMem (pid : ℕ) (file : Option FsFile) (d : LlfContents) (m : Memory) :
    Option (System × Memory × Bool) :=
  let p := schedGet s.sched pid
  if p = 0 then some (s, m, false)
  else do
    let (vm, m, made) ← replaceSpaceMem kernelPhysBase tr file d s.vm m
    match made with
    | none => return ({ s with vm := vm }, m, false)
    | some (newPgd, entry, tmp) =>
      let oldPgd := (s.sched.proc p).pgd
      let sched := s.sched.write p (replaceImage newPgd entry tmp.stackPt tmp.stackPages)
      let vm ← freeTables kernelPhysBase oldPgd vm
      let vm ← vm.kfree oldPgd
      let sched := if p = s.sched.currentProc then contextSwitch sched p else sched
      return ({ s with vm := vm, sched := sched }, m, true)

end System

/-- What user code of the process `pgd` reads at `va`. -/
def userRead (vm : Vm) (pgd : ℕ) (m : Memory) (va : ℕ) : Option UInt8 :=
  (userAddr kernelPhysBase vm pgd va).map m

end Model

section Projection
variable {kpb : ℕ} {tr : ℕ → Option ℕ} {b c : Vm} {pgd : ℕ} {file : Option FsFile}
  {d : LlfContents} {m k : Memory} {entry : Option ℕ}

/-- Without the bytes the load is that of the tables alone. -/
theorem llfLoadMem_vm {image : Llf} {buf size : ℕ}
    (h : llfLoadMem kpb tr pgd image d buf size b m = some (c, k, entry)) :
    llfLoad kpb pgd image size b = some (c, entry) := by
  unfold llfLoadMem at h
  unfold llfLoad
  split at h
  next hsmall =>
    obtain ⟨rfl, -, rfl⟩ : b = c ∧ m = k ∧ none = entry := by simpa using h
    rw [if_pos hsmall]
  next hsmall =>
  rw [if_neg hsmall]
  split at h
  next hmagic =>
    obtain ⟨rfl, -, rfl⟩ : b = c ∧ m = k ∧ none = entry := by simpa using h
    rw [if_pos hmagic]
  next hmagic =>
  rw [if_neg hmagic]
  obtain ⟨⟨e, ok⟩, he, h⟩ := Option.bind_eq_some_iff.mp h
  rw [he]
  cases ok with
  | false =>
    obtain ⟨rfl, -, rfl⟩ : e = c ∧ m = k ∧ none = entry := by simpa using h
    rfl
  | true =>
    obtain ⟨k1, -, h⟩ := Option.bind_eq_some_iff.mp h
    obtain ⟨rfl, -, rfl⟩ : e = c ∧ k1 = k ∧ some image.entry = entry := by simpa using h
    rfl

theorem loadUserImageMem_vm (h : loadUserImageMem kpb tr pgd file d b m = some (c, k, entry)) :
    loadUserImage kpb pgd file b = some (c, entry) := by
  cases file with
  | none =>
    obtain ⟨rfl, -, rfl⟩ : b = c ∧ m = k ∧ none = entry := by simpa [loadUserImageMem] using h
    rfl
  | some f =>
    simp only [loadUserImageMem, loadUserImage] at h ⊢
    split at h
    next hexec =>
      obtain ⟨rfl, -, rfl⟩ : b = c ∧ m = k ∧ none = entry := by simpa using h
      rw [if_pos hexec]
    next hexec =>
    rw [if_neg hexec]
    obtain ⟨⟨b1, buf⟩, hbuf, h⟩ := Option.bind_eq_some_iff.mp h
    rw [hbuf]
    dsimp only [Option.bind_eq_bind, Option.bind_some] at h ⊢
    split at h
    next h0 =>
      obtain ⟨rfl, -, rfl⟩ : b1 = c ∧ m = k ∧ none = entry := by simpa using h
      rw [if_pos h0]
      rfl
    next h0 =>
    rw [if_neg h0]
    obtain ⟨⟨e, k1, entry'⟩, hread, h⟩ := Option.bind_eq_some_iff.mp h
    obtain ⟨g, hg, h⟩ := Option.bind_eq_some_iff.mp h
    obtain ⟨rfl, -, rfl⟩ : g = c ∧ k1 = k ∧ entry' = entry := by simpa using h
    have hproj : readAndLoad kpb pgd f (alignUp f.size 512) b1 = some (e, entry') := by
      unfold readAndLoadMem at hread
      unfold readAndLoad
      split at hread
      next hyes =>
        rw [if_pos hyes]
        exact llfLoadMem_vm hread
      next hno =>
        obtain ⟨rfl, -, rfl⟩ : b1 = e ∧ m = k1 ∧ none = entry' := by simpa using hread
        rw [if_neg hno]
    simp [hproj, hg]

theorem createSpaceMem_vm {proc : ℕ → Process} {made : Option (ℕ × Process)}
    (h : createSpaceMem kpb tr file d proc b m = some (c, k, made)) :
    createSpace kpb file proc b = some (c, made) := by
  unfold createSpaceMem at h
  unfold createSpace
  obtain ⟨⟨b1, alloc⟩, halloc, h⟩ := Option.bind_eq_some_iff.mp h
  rw [halloc]
  cases alloc with
  | none =>
    obtain ⟨rfl, -, rfl⟩ : b1 = c ∧ m = k ∧ none = made := by simpa using h
    rfl
  | some alloc =>
  obtain ⟨⟨e, k1, entry⟩, hload, h⟩ := Option.bind_eq_some_iff.mp h
  simp only [Option.bind_eq_bind, Option.bind_some, loadUserImageMem_vm hload]
  cases entry with
  | none =>
    obtain ⟨g, hg, h⟩ := Option.bind_eq_some_iff.mp h
    obtain ⟨rfl, -, rfl⟩ : g = c ∧ k1 = k ∧ none = made := by simpa using h
    simp [hg]
  | some entry =>
  obtain ⟨⟨g, q, ok⟩, hstack, h⟩ := Option.bind_eq_some_iff.mp h
  simp only [Option.bind_some, hstack]
  cases ok with
  | false =>
    obtain ⟨i, hi, h⟩ := Option.bind_eq_some_iff.mp h
    obtain ⟨rfl, -, rfl⟩ : i = c ∧ k1 = k ∧ none = made := by simpa using h
    simp [hi]
  | true =>
    obtain ⟨rfl, -, rfl⟩ : g = c ∧ k1 = k ∧ some (alloc.1, q) = made := by simpa using h
    rfl

theorem replaceSpaceMem_vm {made : Option (ℕ × ℕ × Process)}
    (h : replaceSpaceMem kpb tr file d b m = some (c, k, made)) :
    replaceSpace kpb file b = some (c, made) := by
  unfold replaceSpaceMem at h
  unfold replaceSpace
  obtain ⟨⟨b1, new⟩, hnew, h⟩ := Option.bind_eq_some_iff.mp h
  rw [hnew]
  dsimp only [Option.bind_eq_bind, Option.bind_some] at h ⊢
  split at h
  next h0 =>
    obtain ⟨rfl, -, rfl⟩ : b1 = c ∧ m = k ∧ none = made := by simpa using h
    rw [if_pos h0]
    rfl
  next h0 =>
  rw [if_neg h0]
  obtain ⟨⟨e, k1, entry⟩, hload, h⟩ := Option.bind_eq_some_iff.mp h
  simp only [Option.bind_some, loadUserImageMem_vm hload]
  cases entry with
  | none =>
    obtain ⟨g, hg, h⟩ := Option.bind_eq_some_iff.mp h
    obtain ⟨rfl, -, rfl⟩ : g = c ∧ k1 = k ∧ none = made := by simpa using h
    simp [hg]
  | some entry =>
  obtain ⟨⟨g, q, ok⟩, hstack, h⟩ := Option.bind_eq_some_iff.mp h
  simp only [Option.bind_some, hstack]
  cases ok with
  | false =>
    obtain ⟨i, hi, h⟩ := Option.bind_eq_some_iff.mp h
    obtain ⟨j, hj, h⟩ := Option.bind_eq_some_iff.mp h
    obtain ⟨rfl, -, rfl⟩ : j = c ∧ k1 = k ∧ none = made := by simpa using h
    simp [hi, hj]
  | true =>
    obtain ⟨rfl, -, rfl⟩ : g = c ∧ k1 = k ∧ some (new, entry, q) = made := by simpa using h
    rfl

/-- The calls with bytes refine those of the life-cycle model. -/
theorem System.processCreateMem_refines {s t : System} {p : ℕ}
    (h : s.processCreateMem kpb tr file d m = some (t, k, p)) :
    s.processCreate kpb file = some (t, p) := by
  unfold System.processCreateMem at h
  unfold System.processCreate
  obtain ⟨⟨e, k1, made⟩, hspace, h⟩ := Option.bind_eq_some_iff.mp h
  rw [createSpaceMem_vm hspace]
  cases made <;>
  · simp only [Option.pure_def, Option.some.injEq, Prod.mk.injEq] at h
    obtain ⟨rfl, -, rfl⟩ := h
    rfl

theorem System.processReplaceMem_refines {s t : System} {pid : ℕ} {ok : Bool}
    (h : s.processReplaceMem kpb tr pid file d m = some (t, k, ok)) :
    s.processReplace kpb pid file = some (t, ok) := by
  unfold System.processReplaceMem at h
  unfold System.processReplace
  dsimp only at h ⊢
  split at h
  next h0 =>
    obtain ⟨rfl, -, rfl⟩ : s = t ∧ m = k ∧ false = ok := by simpa using h
    rw [if_pos h0]
  next h0 =>
  rw [if_neg h0]
  obtain ⟨⟨e, k1, made⟩, hspace, h⟩ := Option.bind_eq_some_iff.mp h
  simp only [Option.bind_eq_bind, Option.bind_some, replaceSpaceMem_vm hspace]
  cases made with
  | none =>
    simp only [Option.pure_def, Option.some.injEq, Prod.mk.injEq] at h
    obtain ⟨rfl, -, rfl⟩ := h
    rfl
  | some made =>
    obtain ⟨f, hf, h⟩ := Option.bind_eq_some_iff.mp h
    obtain ⟨g, hg, h⟩ := Option.bind_eq_some_iff.mp h
    simp only [Option.pure_def, Option.some.injEq, Prod.mk.injEq] at h
    obtain ⟨rfl, -, rfl⟩ := h
    simp only [hf, hg, Option.bind_some]
    rfl

end Projection

section Stores
variable {walk : ℕ → Option ℕ}

theorem storeAll_frame {ws : List (ℕ × UInt8)} {m k : Memory} (h : storeAll walk ws m = some k)
    (m' : Memory) : ∃ k', storeAll walk ws m' = some k' ∧
      ∀ x, (∀ w ∈ ws, walk w.1 ≠ some x) → k' x = m' x := by
  induction ws generalizing m m' with
  | nil => exact ⟨m', rfl, fun _ _ => rfl⟩
  | cons w ws ih =>
    obtain ⟨m1, hm1, h⟩ := Option.bind_eq_some_iff.mp h
    obtain ⟨pa, hpa, -⟩ := Option.map_eq_some_iff.mp hm1
    obtain ⟨k', hk', hkeep⟩ := ih h (Function.update m' pa w.2)
    refine ⟨k', ?_, fun x hx => ?_⟩
    · unfold storeAll
      rw [List.foldlM_cons, hpa]
      exact hk'
    · rw [hkeep x fun v hv => hx v (List.mem_cons_of_mem _ hv), Function.update_of_ne]
      rintro rfl
      exact hx w (List.mem_cons_self ..) hpa

/-- What the file holds of a segment fits the user's range too. -/
def LlfContents.Fits (d : LlfContents) (file : Option FsFile) : Prop :=
  ∀ f, file = some f → ∀ i ph, f.image.phdrs[i]? = some ph → ph.type = llfSegLoad →
    ph.vaddr + d.filesz i ≤ procUserVaTop

/-- The loader stores to the user's range only. -/
theorem loadStores_low {d : LlfContents} {f : FsFile} (hbelow : f.image.Below procUserVaTop)
    (hfits : d.Fits (some f)) (buf : ℕ) {w : ℕ × UInt8}
    (hw : w ∈ loadStores buf d f.image.phdrs) : w.1 < procUserVaTop := by
  obtain ⟨⟨ph, i⟩, hph, hw⟩ := List.mem_flatMap.mp hw
  have hget : f.image.phdrs[i]? = some ph := List.mem_zipIdx_iff_getElem?.mp hph
  unfold segmentStores at hw
  dsimp only at hw
  split at hw
  next => exact absurd hw (by simp)
  next hnull =>
    have hmem := hbelow ph (List.mem_of_getElem? hget) hnull
    rcases List.mem_append.mp hw with hw | hw
    · obtain ⟨k, hk, rfl⟩ := List.mem_map.mp hw
      have := List.mem_range.mp hk
      unfold u32
      dsimp only
      omega
    · split at hw
      next hload =>
        have hfile := hfits f rfl i ph hget hload.1
        unfold memcpyStores at hw
        split at hw
        next => exact absurd hw (by simp)
        next =>
          obtain ⟨k, hk, rfl⟩ := List.mem_map.mp hw
          have := List.mem_range.mp hk
          unfold u32
          dsimp only
          omega
      next => exact absurd hw (by simp)

end Stores

section Load
variable {kpb : ℕ} {tr : ℕ → Option ℕ} {a b c : Vm} {B : List Client} {P : List ℕ} {pgd : ℕ}
  {file : Option FsFile} {d : LlfContents}

theorem Holds.page_allocated (h : Holds a b B P) {pa : ℕ} (hpa : pa ∈ P) :
    mmPageIsAllocated b.pmm pa = true := by
  obtain ⟨j, hj, heq, -⟩ := h.fresh pa hpa
  rw [mmPageIsAllocated_iff h.ok.pmm, h.region.totalPages, h.region.ramBase]
  refine ⟨j, hj, heq, ?_⟩
  rw [h.bits j hj, ← heq, decide_eq_true hpa, Bool.or_true]

theorem Holds.stays_allocated (ha : PmmOk a.pmm) (h : Holds a b B P) {pa : ℕ}
    (hpa : mmPageIsAllocated a.pmm pa = true) : mmPageIsAllocated b.pmm pa = true := by
  obtain ⟨j, hj, heq, hset⟩ := (mmPageIsAllocated_iff ha pa).mp hpa
  rw [mmPageIsAllocated_iff h.ok.pmm, h.region.totalPages, h.region.ramBase]
  refine ⟨j, hj, heq, ?_⟩
  rw [h.bits j hj, hset, Bool.true_or]

/-- From any memory the load gives the same tables and entry point, and leaves the pages that are
free afterwards as they were. -/
def LeavesFree (load : Memory → Option (Vm × Memory × Option ℕ)) (c : Vm) (entry : Option ℕ) :
    Prop :=
  ∀ m, ∃ k, load m = some (c, k, entry) ∧ ∀ pa, pa % pageSize = 0 →
    mmPageIsAllocated c.pmm pa = false → ∀ o < pageSize, k (pa + o) = m (pa + o)

theorem leavesFree_refl (b : Vm) (entry : Option ℕ) :
    LeavesFree (fun m => some (b, m, entry)) b entry :=
  fun m => ⟨m, rfl, fun _ _ _ _ _ => rfl⟩

theorem Space.stores_leave (ha : PmmOk a.pmm) (h : Space kpb a c B pgd) {ws : List (ℕ × UInt8)}
    (hlow : ∀ w ∈ ws, w.1 < procUserVaTop) {m k : Memory}
    (hk : storeAll (loadAddr kpb tr c pgd) ws m = some k) (m' : Memory) :
    ∃ k', storeAll (loadAddr kpb tr c pgd) ws m' = some k' ∧ ∀ pa, pa % pageSize = 0 →
      mmPageIsAllocated c.pmm pa = false → ∀ o < pageSize, k' (pa + o) = m' (pa + o) := by
  obtain ⟨k', hk', hkeep⟩ := storeAll_frame hk m'
  refine ⟨k', hk', fun pa hmod hfree o ho => hkeep _ fun w hw haddr => ?_⟩
  rw [loadAddr, if_pos (hlow w hw)] at haddr
  obtain ⟨mb, hmb, i, hi, q, hq, hx, -⟩ := userAddr_some haddr
  have hmem : q ∈ spacePages kpb c pgd := mem_spacePages.mpr ⟨mb, hmb, i, hi, hq⟩
  refine page_bytes_ne hmod (Holds.fresh_page ha h hmem).1 ?_ ho (Nat.mod_lt _ (by decide)) hx
  rintro rfl
  rw [Holds.page_allocated h hmem] at hfree
  exact absurd hfree (by decide)

theorem Space.llfLoadMem (hk : kpb < 4294967296) (hal : kpb % 1024 = 0) (ha : PmmOk a.pmm)
    {f : FsFile} (hfile : f.image.Below procUserVaTop) (hfits : d.Fits (some f))
    (h : Space kpb a b B pgd) {buf size : ℕ} {m k : Memory} {entry : Option ℕ}
    (hrun : Leg.llfLoadMem kpb tr pgd f.image d buf size b m = some (c, k, entry)) :
    LeavesFree (fun m => Leg.llfLoadMem kpb tr pgd f.image d buf size b m) c entry := by
  unfold Leg.llfLoadMem at hrun ⊢
  split at hrun
  next hsmall =>
    obtain ⟨rfl, -, rfl⟩ : b = c ∧ m = k ∧ none = entry := by simpa using hrun
    simp only [if_pos hsmall]
    exact leavesFree_refl b none
  next hsmall =>
  simp only [if_neg hsmall]
  split at hrun
  next hmagic =>
    obtain ⟨rfl, -, rfl⟩ : b = c ∧ m = k ∧ none = entry := by simpa using hrun
    simp only [if_pos hmagic]
    exact leavesFree_refl b none
  next hmagic =>
  simp only [if_neg hmagic]
  obtain ⟨e, ok, he, hext⟩ := h.mapSegments hk hal (le_refl _) (by decide) hfile
  rw [he] at hrun ⊢
  simp only [Option.bind_eq_bind, Option.bind_some] at hrun ⊢
  cases ok with
  | false =>
    obtain ⟨rfl, -, rfl⟩ : e = c ∧ m = k ∧ none = entry := by simpa using hrun
    exact leavesFree_refl e none
  | true =>
    simp only [not_true, if_false] at hrun ⊢
    obtain ⟨k1, hk1, hrun⟩ := Option.bind_eq_some_iff.mp hrun
    obtain ⟨rfl, -, rfl⟩ : e = c ∧ k1 = k ∧ some f.image.entry = entry := by simpa using hrun
    intro m'
    obtain ⟨k', hk', hkeep⟩ := hext.space.stores_leave ha
      (fun w hw => loadStores_low hfile hfits buf hw) hk1 m'
    exact ⟨k', by simp [hk'], hkeep⟩

theorem Space.loadUserImageMem (hk : kpb < 4294967296) (hal : kpb % 1024 = 0) (ha : PmmOk a.pmm)
    (hfile : InUserRange file) (hfits : d.Fits file) (h : Space kpb a b B pgd) {m k : Memory}
    {entry : Option ℕ} (hrun : Leg.loadUserImageMem kpb tr pgd file d b m = some (c, k, entry)) :
    LeavesFree (fun m => Leg.loadUserImageMem kpb tr pgd file d b m) c entry := by
  cases file with
  | none =>
    obtain ⟨rfl, -, rfl⟩ : b = c ∧ m = k ∧ none = entry := by
      simpa [Leg.loadUserImageMem] using hrun
    exact leavesFree_refl b none
  | some f =>
    simp only [Leg.loadUserImageMem] at hrun ⊢
    split at hrun
    next hexec =>
      obtain ⟨rfl, -, rfl⟩ : b = c ∧ m = k ∧ none = entry := by simpa using hrun
      simp only [if_pos hexec]
      exact leavesFree_refl b none
    next hexec =>
    simp only [if_neg hexec]
    have hsize := alignUp_sector_lt f.size
    generalize alignUp f.size 512 = llfSize at *
    rcases h.kmalloc hsize with hr | ⟨b1, buf, hr, hbuf, hs1, -, -⟩
    · rw [hr] at hrun ⊢
      obtain ⟨rfl, -, rfl⟩ : b = c ∧ m = k ∧ none = entry := by simpa using hrun
      exact leavesFree_refl b none
    rw [hr] at hrun ⊢
    simp only [Option.bind_eq_bind, Option.bind_some, hbuf, if_false] at hrun ⊢
    obtain ⟨⟨e, k1, entry'⟩, hload, hrun⟩ := Option.bind_eq_some_iff.mp hrun
    obtain ⟨g, hfree, hrun⟩ := Option.bind_eq_some_iff.mp hrun
    obtain ⟨rfl, -, rfl⟩ : g = c ∧ k1 = k ∧ entry' = entry := by simpa using hrun
    have hpmm : g.pmm = e.pmm := by
      obtain ⟨heap, -, rfl⟩ := Option.map_eq_some_iff.mp hfree
      rfl
    have hleave : LeavesFree (fun m => readAndLoadMem kpb tr pgd f d buf llfSize b1 m) e
        entry' := by
      unfold readAndLoadMem at hload ⊢
      split at hload
      next hread =>
        simp only [if_pos hread]
        exact hs1.llfLoadMem hk hal ha (hfile f rfl) hfits hload
      next hread =>
        obtain ⟨rfl, -, rfl⟩ : b1 = e ∧ m = k1 ∧ none = entry' := by simpa using hload
        simp only [if_neg hread]
        exact leavesFree_refl b1 none
    intro m'
    obtain ⟨k', hk', hkeep⟩ := hleave m'
    refine ⟨k', by simp [hk', hfree], fun pa hmod hpa => hkeep pa hmod ?_⟩
    rwa [← hpmm]

end Load

section Stack
variable {kpb : ℕ} {b c : Vm} {pgd pt : ℕ}

theorem getOrAllocL2_pmm {mb : ℕ} (h : b.getOrAllocL2 kpb pgd mb = some (c, pt)) :
    c.pmm = b.pmm := by
  unfold Vm.getOrAllocL2 at h
  split at h
  next =>
    rw [(Prod.mk.inj (Option.some.inj h)).1]
  next =>
    obtain ⟨⟨e, q⟩, he, h⟩ := Option.map_eq_some_iff.mp h
    obtain ⟨⟨g, r⟩, hg, he⟩ := Option.map_eq_some_iff.mp he
    obtain ⟨⟨heap, ptr⟩, -, hg⟩ := Option.map_eq_some_iff.mp hg
    obtain ⟨rfl, rfl⟩ := Prod.mk.inj hg
    obtain ⟨rfl, rfl⟩ := Prod.mk.inj he
    obtain ⟨rfl, rfl⟩ := Prod.mk.inj h
    dsimp only
    split <;> rfl

theorem processAddPage_new (hok : VmOk b) (hpt : tableOf kpb b pgd 31 = some pt) {p q : Process}
    (hsp : p.stackPt = pt) (hlt : p.stackPages < procStackInitPages)
    (h : processAddPage kpb b p = some (c, q, true)) :
    VmOk c ∧ tableOf kpb c pgd 31 = some pt ∧ q.stackPt = pt ∧ q.stackPages = p.stackPages + 1 ∧
      (∀ x, mmPageIsAllocated b.pmm x = true → mmPageIsAllocated c.pmm x = true) ∧
      ∃ pa, pageAt kpb c pgd 31 (0xFE - p.stackPages) = some pa ∧ pa % pageSize = 0 ∧
        mmPageIsAllocated b.pmm pa = false := by
  obtain ⟨-, hidx, hcross⟩ := stackPage_va hlt
  unfold processAddPage at h
  simp only [Option.bind_eq_bind, hcross, if_false, Option.bind_some, not_true] at h
  rcases (Holds.refl hok).pageAlloc with hnone | ⟨hne, hmod, -, hb⟩
  · rw [hnone] at h
    simp at h
  simp only [hne, if_false, Option.pure_def, Option.some.injEq, Prod.mk.injEq, and_true] at h
  obtain ⟨rfl, rfl⟩ := h
  rw [hsp]
  exact ⟨⟨hb.ok.heap, hb.ok.high, hb.ok.pmm, hb.ok.ram_pos⟩, hpt, rfl, rfl,
    fun x hx => Holds.stays_allocated hok.pmm hb hx, b.pageAlloc.2,
    pageAt_mmuMapPage (b := b.pageAlloc.1) hpt hidx hmod, hmod,
    (hb.fresh_page hok.pmm (List.mem_cons_self ..)).2.2.2⟩

/-- The entry of the last one of the initial stack pages. -/
def lastStackIdx : ℕ := 0xFF - procStackInitPages

/-- The last stack page is one that was free before. -/
theorem addStackPages_last (k : ℕ) (hok : VmOk b) (hpt : tableOf kpb b pgd 31 = some pt)
    {p q : Process} (hsp : p.stackPt = pt) (hn : p.stackPages + (k + 1) = procStackInitPages)
    (h : addStackPages kpb (k + 1) b p = some (c, q, true)) :
    ∃ pa, pageAt kpb c pgd 31 lastStackIdx = some pa ∧ pa % pageSize = 0 ∧
      mmPageIsAllocated b.pmm pa = false := by
  induction k generalizing b p with
  | zero =>
    obtain ⟨⟨e, r, ok⟩, hadd, h⟩ := Option.bind_eq_some_iff.mp h
    cases ok with
    | false => exact absurd h (by simp)
    | true =>
      simp only [if_true, addStackPages, Option.some.injEq, Prod.mk.injEq, and_true] at h
      obtain ⟨rfl, rfl⟩ := h
      obtain ⟨-, -, -, -, -, hlast⟩ := processAddPage_new hok hpt hsp (by omega) hadd
      rwa [show 0xFE - p.stackPages = lastStackIdx by unfold lastStackIdx; omega] at hlast
  | succ k ih =>
    obtain ⟨⟨e, r, ok⟩, hadd, h⟩ := Option.bind_eq_some_iff.mp h
    cases ok with
    | false => exact absurd h (by simp)
    | true =>
      obtain ⟨hok', hpt', hsp', hn', hstay, -⟩ :=
        processAddPage_new hok hpt hsp (by unfold procStackInitPages at *; omega) hadd
      obtain ⟨pa, hpa, hmod, hfree⟩ := ih hok' hpt' hsp' (by omega) h
      refine ⟨pa, hpa, hmod, ?_⟩
      rw [← Bool.not_eq_true] at hfree ⊢
      exact fun hset => hfree (hstay pa hset)

theorem setupInitialStack_last (hk : kpb < 4294967296) (hal : kpb % 1024 = 0) {a : Vm}
    {B : List Client} {p q : Process} (hpgd : p.pgd = pgd) (hs : Space kpb a b B pgd)
    (h : setupInitialStack kpb b p = some (c, q, true)) :
    ∃ pa, pageAt kpb c pgd 31 lastStackIdx = some pa ∧ pa % pageSize = 0 ∧
      mmPageIsAllocated b.pmm pa = false := by
  obtain ⟨e, pt, he, hext, htable⟩ := hs.getOrAlloc 0 hk hal (by decide : 31 < procVaMb)
  subst hpgd
  unfold setupInitialStack at h
  rw [show procStackTop >>> 20 = 31 from rfl, he] at h
  simp only [Option.bind_eq_bind, Option.bind_some] at h
  split at h
  next => exact absurd h (by simp)
  next hpt =>
    rw [← getOrAllocL2_pmm he]
    exact addStackPages_last 3 hext.space.ok (htable hpt) rfl rfl h

end Stack

/-- A page that is free. -/
def Pmm.Free (g : Pmm) (pa : ℕ) : Prop :=
  paAligned pa ∧ g.paInRange pa ∧ mmPageIsAllocated g pa = false

/-- Two memories that differ only in free pages. -/
def DifferFree (g : Pmm) (m m' : Memory) : Prop :=
  ∀ x, m x ≠ m' x → ∃ pa, g.Free pa ∧ pa ≤ x ∧ x < pa + pageSize

/-- Wherever the memory differs in free pages only, what is read in the end is the same. -/
def NoLeak (g : Pmm) (reads : Memory → Option (ℕ → Option UInt8)) : Prop :=
  ∀ m m' r r', DifferFree g m m' → reads m = some r → reads m' = some r' → r = r'

section Reads
variable (kpb : ℕ) (tr : ℕ → Option ℕ) (s : System) (file : Option FsFile) (d : LlfContents)

/-- What a process reads right after `process_create` made it. -/
def System.createdReads (m : Memory) : Option (ℕ → Option UInt8) := do
  let (t, m, p) ← s.processCreateMem kpb tr file d m
  if p = 0 then none else some (userRead kpb t.vm (t.sched.proc p).pgd m)

/-- What the process `pid` reads right after `process_replace` succeeded. -/
def System.replacedReads (pid : ℕ) (m : Memory) : Option (ℕ → Option UInt8) := do
  let (t, m, ok) ← s.processReplaceMem kpb tr pid file d m
  if ok then some (userRead kpb t.vm (t.sched.proc (schedGet s.sched pid)).pgd m) else none

end Reads

section Leak
variable {kpb : ℕ} {tr : ℕ → Option ℕ} {a b c e : Vm} {B : List Client} {pgd : ℕ}
  {file : Option FsFile} {d : LlfContents} {s : System}

theorem not_noLeak {g : Pmm} {reads : Memory → Option (ℕ → Option UInt8)} {pa va : ℕ}
    (hpa : g.Free pa) (hreads : ∀ m, ∃ r, reads m = some r ∧ r va = some (m pa)) :
    ¬ NoLeak g reads := by
  intro h
  obtain ⟨r, hr, hat⟩ := hreads fun _ => 0
  obtain ⟨r', hr', hat'⟩ := hreads (Function.update (fun _ => 0) pa 1)
  have hdiffer : DifferFree g (fun _ => 0) (Function.update (fun _ => 0) pa 1) := by
    intro x hx
    have hxpa : x = pa := by
      by_contra hne
      exact hx (by rw [Function.update_of_ne hne])
    exact ⟨pa, hpa, by omega, by unfold pageSize; omega⟩
  rw [h _ _ r r' hdiffer hr hr', hat', Function.update_self] at hat
  exact absurd (Option.some.inj hat) (by decide)

theorem userRead_lastStack {m : Memory} {pa : ℕ}
    (h : pageAt kpb c pgd 31 lastStackIdx = some pa) :
    userRead kpb c pgd m initialStackFloor = some (m pa) := by
  unfold userRead userAddr
  rw [if_pos (by decide), show initialStackFloor >>> 20 = 31 from rfl,
    show l2Idx initialStackFloor = lastStackIdx by rw [l2Idx_eq]; rfl, h]
  rfl

/-- A loaded image with its stack: the last stack page still holds what it held before. -/
theorem Space.load_then_stack (hk : kpb < 4294967296) (hal : kpb % 1024 = 0) (ha : PmmOk a.pmm)
    (hfile : InUserRange file) (hfits : d.Fits file) (h : Space kpb a b B pgd) {m k : Memory}
    {entry : ℕ} {p q : Process} (hpgd : p.pgd = pgd)
    (hload : Leg.loadUserImageMem kpb tr pgd file d b m = some (c, k, some entry))
    (hstack : Leg.setupInitialStack kpb c p = some (e, q, true)) :
    q.pgd = pgd ∧ ∃ pa, pageAt kpb e pgd 31 lastStackIdx = some pa ∧ a.pmm.Free pa ∧
      ∀ m', ∃ k', Leg.loadUserImageMem kpb tr pgd file d b m' = some (c, k', some entry) ∧
        k' pa = m' pa := by
  have hproj := loadUserImageMem_vm hload
  have hleave := h.loadUserImageMem hk hal ha hfile hfits hload
  obtain ⟨c', entry', hc, hext⟩ := h.loadUserImage hk hal (le_refl _) (by decide) hfile
  rw [hproj, Option.some.injEq, Prod.mk.injEq] at hc
  obtain ⟨rfl, -⟩ := hc
  obtain ⟨pa, hpa, hmod, hfree⟩ := setupInitialStack_last hk hal hpgd hext.space hstack
  obtain ⟨e', q', ok, he, ⟨L, hholds⟩, hq⟩ := hext.space.setupStack hk hal hpgd
  rw [hstack, Option.some.injEq, Prod.mk.injEq, Prod.mk.injEq] at he
  obtain ⟨rfl, rfl, -⟩ := he
  refine ⟨hq, pa, hpa, ?_, fun m' => ?_⟩
  · have hmem : pa ∈ spacePages kpb e pgd ++ L := List.mem_append_left _
      (mem_spacePages.mpr ⟨31, by decide, lastStackIdx, by decide, hpa⟩)
    obtain ⟨-, hal', hrange, hclear⟩ := hholds.fresh_page ha hmem
    exact ⟨hal', hrange, hclear⟩
  · obtain ⟨k', hk', hkeep⟩ := hleave m'
    exact ⟨k', hk', hkeep pa hmod hfree 0 (by decide)⟩

/-- A created process reads at the floor of its stack what a free page held. -/
theorem createdReads_floor (hk : kpb < 4294967296) (hal : kpb % 1024 = 0) (hok : VmOk s.vm)
    (hfile : InUserRange file) (hfits : d.Fits file) {m : Memory} {r : ℕ → Option UInt8}
    (h : s.createdReads kpb tr file d m = some r) :
    ∃ pa, s.vm.pmm.Free pa ∧ ∀ m', ∃ r', s.createdReads kpb tr file d m' = some r' ∧
      r' initialStackFloor = some (m' pa) := by
  obtain ⟨⟨t, k, p⟩, hcreate, h⟩ := Option.bind_eq_some_iff.mp h
  obtain ⟨⟨e, k1, made⟩, hspace, hcreate⟩ := Option.bind_eq_some_iff.mp hcreate
  cases made with
  | none =>
    obtain ⟨-, -, rfl⟩ : _ ∧ _ ∧ 0 = p := by simpa using hcreate
    exact absurd h (by simp)
  | some made =>
  obtain ⟨p', q⟩ := made
  obtain ⟨⟨b, alloc⟩, halloc, hspace⟩ := Option.bind_eq_some_iff.mp hspace
  rcases allocProcess_holds kpb hok with ⟨b', hb', -⟩ | ⟨b', p1, pgd, hb', hp, -, hs, -⟩
  · rw [hb'] at halloc
    obtain ⟨-, rfl⟩ := Prod.mk.inj (Option.some.inj halloc)
    exact absurd hspace (by simp)
  rw [hb'] at halloc
  obtain ⟨rfl, rfl⟩ := Prod.mk.inj (Option.some.inj halloc)
  obtain ⟨⟨c, k2, entry⟩, hload, hspace⟩ := Option.bind_eq_some_iff.mp hspace
  cases entry with
  | none =>
    obtain ⟨g, -, hspace⟩ := Option.bind_eq_some_iff.mp hspace
    exact absurd hspace (by simp)
  | some entry =>
  obtain ⟨⟨g, q', ok⟩, hstack, hspace⟩ := Option.bind_eq_some_iff.mp hspace
  cases ok with
  | false =>
    obtain ⟨g, -, hspace⟩ := Option.bind_eq_some_iff.mp hspace
    exact absurd hspace (by simp)
  | true =>
  obtain ⟨hq, pa, hpa, hfree, hall⟩ := hs.load_then_stack hk hal hok.pmm hfile hfits rfl hload
    hstack
  refine ⟨pa, hfree, fun m' => ?_⟩
  obtain ⟨k', hk', hat⟩ := hall m'
  refine ⟨userRead kpb g pgd k', ?_, by rw [userRead_lastStack hpa, hat]⟩
  simp [System.createdReads, System.processCreateMem, createSpaceMem, hb', hk', hstack, hp, hq]

theorem freePages_tables (pt : ℕ) (b : Vm) :
    (freePages pt b).l1 = b.l1 ∧ (freePages pt b).l2 = b.l2 := by
  unfold freePages
  induction List.range l2Entries generalizing b with
  | nil => exact ⟨rfl, rfl⟩
  | cons i is ih =>
    rw [List.foldl_cons]
    split
    next => exact ih (b.pageFree _)
    next => exact ih b

theorem kfree_tables {ptr : ℕ} (h : b.kfree ptr = some c) : c.l1 = b.l1 ∧ c.l2 = b.l2 := by
  obtain ⟨heap, -, rfl⟩ := Option.map_eq_some_iff.mp h
  exact ⟨rfl, rfl⟩

theorem freeTables_tables (h : freeTables kpb pgd b = some c) : c.l1 = b.l1 ∧ c.l2 = b.l2 := by
  unfold freeTables at h
  generalize List.range procVaMb = slots at h
  induction slots generalizing b with
  | nil =>
    obtain rfl := Option.some.inj h
    exact ⟨rfl, rfl⟩
  | cons mb mbs ih =>
    obtain ⟨b1, hb1, h⟩ := Option.bind_eq_some_iff.mp h
    obtain ⟨h1, h2⟩ := ih h
    rw [h1, h2]
    dsimp only at hb1
    split at hb1
    next =>
      obtain rfl := Option.some.inj hb1
      exact ⟨rfl, rfl⟩
    next =>
      obtain ⟨h1', h2'⟩ := kfree_tables hb1
      rw [h1', h2']
      exact freePages_tables _ b

/-- A process that another image replaced reads what a free page held. -/
theorem replacedReads_floor (hk : kpb < 4294967296) (hal : kpb % 1024 = 0) (hok : VmOk s.vm)
    (hfile : InUserRange file) (hfits : d.Fits file) {pid : ℕ} {m : Memory}
    {r : ℕ → Option UInt8} (h : s.replacedReads kpb tr file d pid m = some r) :
    ∃ pa, s.vm.pmm.Free pa ∧ ∀ m', ∃ r', s.replacedReads kpb tr file d pid m' = some r' ∧
      r' initialStackFloor = some (m' pa) := by
  obtain ⟨⟨t, k, done⟩, hreplace, h⟩ := Option.bind_eq_some_iff.mp h
  obtain rfl : done = true := by
    by_contra hno
    simp [hno] at h
  unfold System.processReplaceMem at hreplace
  dsimp only at hreplace
  split at hreplace
  next => exact absurd hreplace (by simp)
  next hpid =>
  obtain ⟨⟨b, k1, made⟩, hspace, hreplace⟩ := Option.bind_eq_some_iff.mp hreplace
  cases made with
  | none => exact absurd hreplace (by simp)
  | some made =>
  obtain ⟨new, entry, tmp⟩ := made
  obtain ⟨c, hc, hreplace⟩ := Option.bind_eq_some_iff.mp hreplace
  obtain ⟨e, he, -⟩ := Option.bind_eq_some_iff.mp hreplace
  obtain ⟨⟨b0, pgd⟩, hpgd, hspace⟩ := Option.bind_eq_some_iff.mp hspace
  rcases (Holds.refl hok).procTable kpb with hr | ⟨b', pgd', hr, hne, hs, -⟩
  · rw [hr] at hpgd
    obtain ⟨-, rfl⟩ := Prod.mk.inj (Option.some.inj hpgd)
    exact absurd hspace (by simp)
  rw [hr] at hpgd
  obtain ⟨rfl, rfl⟩ := Prod.mk.inj (Option.some.inj hpgd)
  dsimp only at hspace
  rw [if_neg hne] at hspace
  obtain ⟨⟨g, k2, entry'⟩, hload, hspace⟩ := Option.bind_eq_some_iff.mp hspace
  cases entry' with
  | none =>
    obtain ⟨g, -, hspace⟩ := Option.bind_eq_some_iff.mp hspace
    exact absurd hspace (by simp)
  | some entry' =>
  obtain ⟨⟨i, q, ok⟩, hstack, hspace⟩ := Option.bind_eq_some_iff.mp hspace
  cases ok with
  | false =>
    obtain ⟨g, -, hspace⟩ := Option.bind_eq_some_iff.mp hspace
    obtain ⟨g, -, hspace⟩ := Option.bind_eq_some_iff.mp hspace
    exact absurd hspace (by simp)
  | true =>
  obtain ⟨rfl, -, rfl, rfl, rfl⟩ : i = b ∧ k2 = k1 ∧ pgd' = new ∧ entry' = entry ∧ q = tmp := by
    simpa using hspace
  obtain ⟨-, pa, hpa, hfree, hall⟩ := hs.load_then_stack hk hal hok.pmm hfile hfits rfl hload
    hstack
  -- what the old space gives back changes no table
  have htables : e.l1 = i.l1 ∧ e.l2 = i.l2 := by
    obtain ⟨h1, h2⟩ := freeTables_tables hc
    obtain ⟨h1', h2'⟩ := kfree_tables he
    exact ⟨h1'.trans h1, h2'.trans h2⟩
  have hpa' : pageAt kpb e pgd' 31 lastStackIdx = some pa := by
    rw [← hpa]
    simp only [pageAt, tableOf, pageOf, htables.1, htables.2]
  refine ⟨pa, hfree, fun m' => ?_⟩
  obtain ⟨k', hk', hat⟩ := hall m'
  refine ⟨userRead kpb e pgd' k', ?_, by rw [userRead_lastStack hpa', hat]⟩
  obtain ⟨-, hself, -⟩ := replaced_sched s.sched (schedGet s.sched pid) pgd' entry' q.stackPt
    q.stackPages
  simp only [System.replacedReads, System.processReplaceMem, replaceSpaceMem, hpid, hr, hne, hk',
    hstack, hc, he, Option.bind_eq_bind, Option.bind_some, if_false, not_true, Option.pure_def,
    if_true, hself]
  rfl

end Leak

/-- In every reachable state, what a process that was just created or replaced reads depends on
what the free pages held before. -/
theorem recycled_pages_leak {c : BootConfig} {boot : System} {n : Counted} {ops : List TableOp}
    {tr : ℕ → Option ℕ} {file : Option FsFile} {d : LlfContents} (hb : boot.Boot c)
    (hcur : boot.sched.currentProc = 0) (hr : Run (CountedStep c.kernelPhysBase) ⟨boot, 0⟩ ops n)
    (hfile : InUserRange file) (hfits : d.Fits file) :
    (∀ m r, n.sys.createdReads c.kernelPhysBase tr file d m = some r →
      ¬ NoLeak n.sys.vm.pmm (n.sys.createdReads c.kernelPhysBase tr file d)) ∧
    ∀ pid m r, n.sys.replacedReads c.kernelPhysBase tr file d pid m = some r →
      ¬ NoLeak n.sys.vm.pmm (n.sys.replacedReads c.kernelPhysBase tr file d pid) := by
  obtain ⟨hk, hal⟩ := c.kernelPhysBase_bounds
  obtain ⟨⟨base, -, howned⟩, -⟩ := countedRun_owned hb hcur hr
  have hok := howned.holds.ok
  refine ⟨fun m r h => ?_, fun pid m r h => ?_⟩
  · obtain ⟨pa, hfree, hall⟩ := createdReads_floor hk hal hok hfile hfits h
    exact not_noLeak hfree hall
  · obtain ⟨pa, hfree, hall⟩ := replacedReads_floor hk hal hok hfile hfits h
    exact not_noLeak hfree hall

/-- An image of eight bytes, four of them in the file. -/
def tinyFile : FsFile where
  size := 56
  executable := true
  readable := true
  image := ⟨llfMagic, 0x400000, [⟨llfSegLoad, 0x400000, 8⟩]⟩

def tinyContents : LlfContents := ⟨fun _ => 4, fun _ => 52, fun _ => 0xE1⟩

theorem tinyFile_inUserRange : InUserRange (some tinyFile) := by
  intro f hf ph hph _
  rw [← Option.some.inj hf] at hph
  obtain rfl : ph = ⟨llfSegLoad, 0x400000, 8⟩ := by simpa [tinyFile] using hph
  decide

theorem tinyContents_fits : tinyContents.Fits (some tinyFile) := by
  intro f hf i ph hph _
  rw [← Option.some.inj hf] at hph
  have hmem := List.mem_of_getElem? hph
  obtain rfl : ph = ⟨llfSegLoad, 0x400000, 8⟩ := by simpa [tinyFile] using hmem
  exact (by decide : 0x400000 + 4 ≤ procUserVaTop)

theorem tinyFile_created : ∃ boot r, System.Boot highRamConfig boot ∧
    boot.sched.currentProc = 0 ∧
    boot.createdReads highRamConfig.kernelPhysBase (fun _ => none) (some tinyFile) tinyContents
      (fun _ => 0) = some r := by
  have hsome : ((highRamConfig.init fun _ => 0).bind fun g =>
      (systemOf highRamConfig g).createdReads highRamConfig.kernelPhysBase (fun _ => none)
        (some tinyFile) tinyContents fun _ => 0).isSome = true := by
    decide +kernel
  obtain ⟨r, hr⟩ := Option.isSome_iff_exists.mp hsome
  obtain ⟨g, hg, hr⟩ := Option.bind_eq_some_iff.mp hr
  have hboot : (systemOf highRamConfig g).Boot highRamConfig :=
    ⟨by decide +kernel, ⟨_, g, [], ⟨g, []⟩, hg, .nil _, rfl⟩,
      ⟨_, [], _, .nil _, rfl, rfl⟩, fun _ => rfl, rfl⟩
  exact ⟨_, r, hboot, rfl, hr⟩

theorem recycled_pages_leak_created : ∃ boot : System,
    ¬ NoLeak boot.vm.pmm (boot.createdReads highRamConfig.kernelPhysBase (fun _ => none)
      (some tinyFile) tinyContents) := by
  obtain ⟨boot, r, hboot, hcur, hr⟩ := tinyFile_created
  exact ⟨boot, (recycled_pages_leak hboot hcur (.nil _) tinyFile_inUserRange
    tinyContents_fits).1 _ r hr⟩

theorem created_reads_recycled : ¬ ∀ (c : BootConfig) (boot : System) (n : Counted)
    (ops : List TableOp) (tr : ℕ → Option ℕ) (file : Option FsFile) (d : LlfContents), boot.Boot c →
    boot.sched.currentProc = 0 → Run (CountedStep c.kernelPhysBase) ⟨boot, 0⟩ ops n →
    InUserRange file → d.Fits file →
      NoLeak n.sys.vm.pmm (n.sys.createdReads c.kernelPhysBase tr file d) := by
  intro h
  obtain ⟨boot, r, hboot, hcur, hr⟩ := tinyFile_created
  obtain ⟨hk, hal⟩ := highRamConfig.kernelPhysBase_bounds
  obtain ⟨pa, hfree, hall⟩ := createdReads_floor hk hal (boot_owned hboot).holds.ok
    tinyFile_inUserRange tinyContents_fits hr
  exact not_noLeak hfree hall (h _ boot ⟨boot, 0⟩ [] _ _ _ hboot hcur (.nil _)
    tinyFile_inUserRange tinyContents_fits)

end Leg

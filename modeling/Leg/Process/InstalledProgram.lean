import Leg.Libc.CString
import Leg.Process.LoadedImage
import Leg.Storage.RoundTrip

/-! From the build to the process: an executable that `llf.py` has packed and `build_fs` has put on
the disk is mounted, found by its name and read back, and is what the new process runs. -/
namespace Leg
open Runs Slots Fs

def fsTypeExecutable : ℕ := 1

namespace Fs
variable {t : Fs} {d : Disk} {blobs : List MkfsBlob} {b : MkfsBlob}
  {img name : List UInt8}

/-- What `load_user_image` gets for a name: the blob that `fs_find` finds, and what the buffer at
`buf` holds once `fs_read`, the `k`-th of the block reads, has filled it. -/
def userFile (t : Fs) (d : Disk) (k : ℕ) (name : List UInt8) (buf : ℕ) :
    Option FsFile × LlfContents :=
  let blob := (t.fsFind name).1
  let r := t.fsRead d k blob buf
  let f : Memory := fun a => r.1.heap.heap.mem (buf + a)
  if blob = 0 then (none, llfContentsAt f 0)
  else
    let b := fsBlobAt t.heap.heap.mem blob
    (some (.ofMemory f b.size (b.flags = fsTypeExecutable) r.2), llfContentsAt f 0)

/-- The blob with the name is found, and read unless the disk fails. -/
theorem Mounted.userFile_found (h : Mounted t blobs) (hbase : 0 < t.heap.heap.base)
    (hstart : t.startSector = 0) (hb : Mkfs.buildFs blobs = some img) (hd : d.bytes.Stored 0 img)
    (hnul : (0 : UInt8) ∉ name) (hfind : blobs.find? (fun b => b.name == name) = some b) (k : ℕ)
    {buf : ℕ} (hbuf : 0 < buf) (hroom : buf + Mkfs.alignUp b.data.length ≤ 4294967296) :
    ∃ (f : Memory) (readable : Bool), t.userFile d k name buf =
        (some (.ofMemory f b.data.length (b.flags = fsTypeExecutable) readable),
          llfContentsAt f 0) ∧ (readable = true → f.Stored 0 b.data) := by
  obtain ⟨hname, i, hlt, hi, hbefore⟩ := List.find?_eq_some_iff_getElem.mp hfind
  have hfirst : (t.fsFind name).1 = t.fsBlobAddr i := by
    rw [h.fsFind_eq hnul, List.findIdx?_eq_some_iff_getElem.mpr ⟨hlt, by rwa [hi],
      fun j hj => by simpa using hbefore j hj⟩]
  have hget : blobs[i]? = some b := by rw [List.getElem?_eq_getElem hlt, hi]
  obtain ⟨-, hlow, hdesc⟩ := h.descAt hget
  have hne : t.fsBlobAddr i ≠ 0 := by omega
  refine ⟨fun a => (t.fsRead d k (t.fsBlobAddr i) buf).1.heap.heap.mem (buf + a),
    (t.fsRead d k (t.fsBlobAddr i) buf).2, ?_, fun hread => ?_⟩
  · unfold userFile
    rw [hfirst]
    dsimp only
    rw [if_neg hne, hdesc]
  · have hfails : d.fails k = none := by
      unfold fsRead HeapState.readSectors Disk.blkRead at hread
      cases hk : d.fails k with
      | none => rfl
      | some junk =>
        rw [hk] at hread
        exact absurd hread (by simp)
    obtain ⟨u, hu, hdata, -⟩ := h.fsRead_data hstart hb hd hfails hget hbuf hroom
    have hwhole : u.heap.heap.mem.Stored buf b.data := (Memory.stored_append.mp hdata).1
    rw [hu]
    intro j hj
    dsimp only
    rw [Nat.zero_add, hwhole j hj]

/-- No blob with the name, or none that is an executable. -/
theorem Mounted.userFile_refused (h : Mounted t blobs) (hnul : (0 : UInt8) ∉ name)
    (hrefused : ∀ b, blobs.find? (fun b => b.name == name) = some b → b.flags ≠ fsTypeExecutable)
    (k buf : ℕ) : ∀ file, (t.userFile d k name buf).1 = some file → file.executable = false := by
  intro file hfile
  unfold userFile at hfile
  rw [h.fsFind_eq hnul] at hfile
  cases hfirst : blobs.findIdx? fun b => b.name == name with
  | none =>
    rw [hfirst] at hfile
    exact absurd hfile (by simp)
  | some i =>
    rw [hfirst] at hfile
    dsimp only at hfile
    obtain ⟨hlt, hname, hbefore⟩ := List.findIdx?_eq_some_iff_getElem.mp hfirst
    have hflags := hrefused blobs[i]
      (List.find?_eq_some_iff_getElem.mpr ⟨hname, i, hlt, rfl, fun j hj => by
        simpa using hbefore j hj⟩)
    obtain ⟨-, -, hdesc⟩ := h.descAt (List.getElem?_eq_getElem hlt)
    split at hfile
    next => exact absurd hfile (by simp)
    next =>
      rw [hdesc] at hfile
      rw [← Option.some.inj hfile]
      exact decide_eq_false hflags

end Fs

/-- `char kname[64]`. -/
def knameSize : ℕ := 64

/-- `process_replace` of a name: the name is copied into `kname`, which holds anything before, and
what the filesystem has under the copy is loaded. `none` where the copy overruns the array. -/
def System.processReplaceNamed (kpb : ℕ) (tr : ℕ → Option ℕ) (s : System) (pid : ℕ)
    (name : List UInt8) (kname : Vector UInt8 knameSize) (t : Fs) (d : Disk) (k buf : ℕ)
    (m : Memory) : Option (System × Memory × Bool) :=
  if schedGet s.sched pid = 0 then some (s, m, false)
  else do
    let kname ← strcpy kname.toList name
    let (file, contents) := t.userFile d k (kname.takeWhile fun c => c != 0) buf
    s.processReplaceMem kpb tr pid file contents m

section Named
variable {kpb : ℕ} {tr : ℕ → Option ℕ} {s : System} {pid : ℕ} {name : List UInt8}
  {kname : Vector UInt8 knameSize} {t : Fs} {d : Disk} {k buf : ℕ} {m : Memory}

theorem processReplaceNamed_short (hnul : (0 : UInt8) ∉ name) (hlen : name.length < knameSize) :
    s.processReplaceNamed kpb tr pid name kname t d k buf m =
      s.processReplaceMem kpb tr pid (t.userFile d k name buf).1 (t.userFile d k name buf).2 m := by
  unfold System.processReplaceNamed
  split
  next h0 =>
    unfold System.processReplaceMem
    dsimp only
    rw [if_pos h0]
  next =>
    rw [strcpy_eq, Vector.length_toList, if_pos hlen, Option.bind_eq_bind, Option.bind_some,
      takeWhile_copy hnul]

theorem processReplaceNamed_long (hlen : knameSize ≤ name.length)
    (hpid : schedGet s.sched pid ≠ 0) :
    s.processReplaceNamed kpb tr pid name kname t d k buf m = none := by
  unfold System.processReplaceNamed
  rw [if_neg hpid, strcpy_eq, Vector.length_toList, if_neg (Nat.not_lt.mpr hlen)]
  rfl

end Named

/-- The processes have what they had: their tables lead to the same pages, and the pages and heap
blocks in use are the same. -/
structure Untouched (kpb : ℕ) (s : System) (vm : Vm) : Prop where
  memory : SameMemory s.vm vm
  walks : ∀ p ∈ s.procs, ∀ va,
    userAddr kpb vm (s.sched.proc p).pgd va = userAddr kpb s.vm (s.sched.proc p).pgd va

section Refused
variable {kpb : ℕ} {tr : ℕ → Option ℕ} {base : Vm} {s : System} {file : Option FsFile}
  {contents : LlfContents}

/-- Allocations that are all given back leave every process what it has. -/
theorem OwnedOk.untouched (h : OwnedOk kpb base s) {b : Vm} (hb : Holds s.vm b [] []) :
    Untouched kpb s b := by
  refine ⟨hb.sameMemory h.holds.ok.pmm, fun p hp va => ?_⟩
  have hlive (d : Client) (hd : d ∈ spaceBlocks kpb s.vm (s.sched.proc p).pgd) : d ∈ s.vm.live :=
    h.block_live hp (List.mem_cons_of_mem _ hd)
  have h1 : b.l1 (s.sched.proc p).pgd = s.vm.l1 (s.sched.proc p).pgd :=
    hb.l1 _ (hlive ⟨_, procTableSize⟩ (List.mem_cons_self ..))
  unfold userAddr
  split
  next hva =>
    unfold pageAt
    rw [tableOf_congr h1]
    cases ht : tableOf kpb s.vm (s.sched.proc p).pgd (va >>> 20) with
    | none => rfl
    | some pt =>
      have hmb : va >>> 20 < procVaMb := by
        rw [Nat.shiftRight_eq_div_pow]
        unfold procUserVaTop at hva
        unfold procVaMb
        omega
      have h2 : b.l2 pt = s.vm.l2 pt := hb.l2 _ (hlive (tableBlock pt)
        (List.mem_cons_of_mem _ (List.mem_map_of_mem (mem_spaceTables hmb ht))))
      rw [Option.bind_some, Option.bind_some, pageOf, pageOf, h2]
  next => rfl

theorem loadUserImageMem_refused (hfile : ∀ f, file = some f → f.executable = false) (pgd : ℕ)
    (vm : Vm) (m : Memory) :
    loadUserImageMem kpb tr pgd file contents vm m = some (vm, m, none) := by
  cases file with
  | none => rfl
  | some f =>
    unfold loadUserImageMem
    dsimp only
    rw [hfile f rfl, if_pos Bool.false_ne_true]

theorem created_refused (h : OwnedOk kpb base s) (hfile : ∀ f, file = some f → f.executable = false)
    (m : Memory) : ∃ vm, s.processCreateMem kpb tr file contents m =
      some ({ s with vm := vm }, m, 0) ∧ Untouched kpb s vm := by
  unfold System.processCreateMem createSpaceMem
  rcases allocProcess_holds kpb h.holds.ok with ⟨b, hb, hholds⟩ | ⟨b, p, pgd, hb, -, -, hs, -⟩
  · rw [hb]
    exact ⟨b, rfl, h.untouched hholds⟩
  · obtain ⟨c, hc, hholds⟩ := hs.processFree
    rw [hb]
    simp only [Option.bind_eq_bind, Option.bind_some, loadUserImageMem_refused hfile, hc]
    exact ⟨c, rfl, h.untouched hholds⟩

/-- A file that is not executable replaces no process. -/
theorem replaced_refused (h : OwnedOk kpb base s)
    (hfile : ∀ f, file = some f → f.executable = false) (pid : ℕ) (m : Memory) :
    ∃ vm, s.processReplaceMem kpb tr pid file contents m = some ({ s with vm := vm }, m, false) ∧
      Untouched kpb s vm := by
  have hrefl := h.untouched (.refl h.holds.ok)
  unfold System.processReplaceMem replaceSpaceMem
  dsimp only
  split
  next => exact ⟨s.vm, rfl, hrefl⟩
  next =>
    rcases (Holds.refl h.holds.ok).procTable kpb with hr | ⟨b, pgd, hr, hne, hs, hempty⟩
    · rw [hr]
      exact ⟨s.vm, rfl, hrefl⟩
    · have hpgd : (⟨pgd, procTableSize⟩ : Client) ∈ spaceBlocks kpb b pgd ++ [] :=
        List.mem_append_left _ (List.mem_cons_self ..)
      obtain ⟨c, hc, hholds, -⟩ := Holds.free hs hpgd
      -- the new table has no L2 tables yet, so that it is all that is given back
      have htables : spaceTables kpb b pgd = [] := occupied_none fun mb _ => hempty mb
      rw [spaceBlocks, spacePages, htables, List.append_nil, List.erase_cons_head] at hholds
      rw [hr]
      simp only [Option.bind_eq_bind, Option.bind_some, if_neg hne,
        loadUserImageMem_refused hfile, show b.kfree pgd = some c from hc]
      exact ⟨c, rfl, h.untouched hholds⟩

end Refused

/-- What a mount leaves of a disk on which `build_fs` has put the blobs, after any run of the heap's
calls. -/
def Installed (blobs : List MkfsBlob) (d : Disk) (t : Fs) : Prop :=
  ∃ (mem : Memory) (heapVa : ℕ) (ops : List HeapOp) (s : Fs) (img : List UInt8),
    0 < heapVa ∧ heapVa + kheapSize < 4294967296 ∧
    Run HeapStep ⟨kheapInit mem heapVa, []⟩ ops s.heap ∧
    Mkfs.buildFs blobs = some img ∧ d.bytes.Stored 0 img ∧ s.fsMount d 0 = some (t, true)

/-- In every reachable state, for every name: the first blob with it, if it is a packed executable
that fits, is what the process created or replaced under that name runs; without such a blob the
call leaves the processes what they have. A name that `process_replace` gets has to fit `kname`. -/
theorem countedRun_runs_installed {c : BootConfig} {boot : System} {n : Counted}
    {ops : List TableOp} {blobs : List MkfsBlob} {d : Disk} {t : Fs} {name : List UInt8}
    (hi : Installed blobs d t) (hb : boot.Boot c) (hcur : boot.sched.currentProc = 0)
    (hr : Run (CountedStep c.kernelPhysBase) ⟨boot, 0⟩ ops n) (hnul : (0 : UInt8) ∉ name)
    (k : ℕ) (tr : ℕ → Option ℕ) (kname : Vector UInt8 knameSize) (m : Memory) :
    (∀ b elf phdrs buf, blobs.find? (fun b => b.name == name) = some b →
        Packed elf phdrs b.data → 0 < buf → buf + Mkfs.alignUp b.data.length ≤ 4294967296 →
      (∃ u l p, n.sys.processCreateMem c.kernelPhysBase tr (t.userFile d k name buf).1
          (t.userFile d k name buf).2 m = some (u, l, p) ∧
        (p ≠ 0 → RunsImage c.kernelPhysBase u l p elf phdrs)) ∧
      (name.length < knameSize → ∀ pid, ∃ u l ok, n.sys.processReplaceNamed c.kernelPhysBase tr pid
          name kname t d k buf m = some (u, l, ok) ∧
        (ok = true → RunsImage c.kernelPhysBase u l (schedGet n.sys.sched pid) elf phdrs))) ∧
    ((∀ b, blobs.find? (fun b => b.name == name) = some b → b.flags ≠ fsTypeExecutable) →
      ∀ buf, (∃ vm, n.sys.processCreateMem c.kernelPhysBase tr (t.userFile d k name buf).1
          (t.userFile d k name buf).2 m = some ({ n.sys with vm := vm }, m, 0) ∧
        Untouched c.kernelPhysBase n.sys vm) ∧
      (name.length < knameSize → ∀ pid, ∃ vm, n.sys.processReplaceNamed c.kernelPhysBase tr pid
          name kname t d k buf m = some ({ n.sys with vm := vm }, m, false) ∧
        Untouched c.kernelPhysBase n.sys vm)) ∧
    (knameSize ≤ name.length → ∀ pid, schedGet n.sys.sched pid ≠ 0 → ∀ buf,
      n.sys.processReplaceNamed c.kernelPhysBase tr pid name kname t d k buf m = none) := by
  obtain ⟨mem, heapVa, hops, s, img, hpos, hfits, hheap, himg, hd, hm⟩ := hi
  obtain ⟨hva, hok⟩ := heapRun_heapOk hpos hfits hheap
  have hd' : d.bytes.Stored (0 * 512) img := by rwa [Nat.zero_mul]
  obtain ⟨hmounted, hbase⟩ := fsMount_mounted hok himg hd' hm
  have hstart := fsMount_start hok himg hd' hm
  obtain ⟨hk, hal⟩ := c.kernelPhysBase_bounds
  obtain ⟨⟨base, -, howned⟩, -⟩ := countedRun_owned hb hcur hr
  refine ⟨fun b elf phdrs buf hfind hpacked hbuf hroom => ?_, fun hrefused buf => ?_,
    fun hlong pid hpid buf => processReplaceNamed_long hlong hpid⟩
  · obtain ⟨f, readable, hfile, hstored⟩ := hmounted.userFile_found (by omega) hstart himg hd hnul
      hfind k hbuf hroom
    rw [hfile]
    refine ⟨created_runs hk hal howned.holds.ok hpacked _ readable hstored m, fun hshort pid => ?_⟩
    rw [processReplaceNamed_short hnul hshort, hfile]
    exact replaced_runs hk hal howned hpacked _ readable hstored pid m
  · have hfile := hmounted.userFile_refused (d := d) hnul hrefused k buf
    refine ⟨created_refused howned hfile m, fun hshort pid => ?_⟩
    rw [processReplaceNamed_short hnul hshort]
    exact replaced_refused howned hfile pid m

/-- A blob named `init`. -/
def initBlob (bytes : List UInt8) : MkfsBlob := ⟨[105, 110, 105, 116], bytes, fsTypeExecutable⟩

theorem tinyElf_installed : ∃ bytes img t boot n u l p,
    Installed [initBlob bytes] (goodDisk img) t ∧ System.Boot highRamConfig boot ∧
    Run (CountedStep highRamConfig.kernelPhysBase) ⟨boot, 0⟩ [] n ∧
    n.sys.processCreateMem highRamConfig.kernelPhysBase (fun _ => none)
      (t.userFile (goodDisk img) 3 [105, 110, 105, 116] 0x80000000).1
      (t.userFile (goodDisk img) 3 [105, 110, 105, 116] 0x80000000).2 (fun _ => 1) =
        some (u, l, p) ∧ p ≠ 0 ∧
    RunsImage highRamConfig.kernelPhysBase u l p tinyElf [tinyPhdr] := by
  obtain ⟨bytes, hbytes⟩ := tinyElf_packed
  have hsome : (((LlfPy.parseElf tinyElf).bind fun r => LlfPy.toLlfBytes r.1 r.2).bind fun bytes =>
      (Mkfs.buildFs [initBlob bytes]).bind fun img =>
        (unmounted.fsMount (goodDisk img) 0).bind fun r =>
          (highRamConfig.init fun _ => 0).bind fun g =>
            let file := r.1.userFile (goodDisk img) 3 [105, 110, 105, 116] 0x80000000
            ((systemOf highRamConfig g).processCreateMem highRamConfig.kernelPhysBase
              (fun _ => none) file.1 file.2 fun _ => 1).map fun w =>
                decide (r.2 = true ∧ bytes.length < 512 ∧ w.2.2 ≠ 0)) = some true := by
    decide +kernel
  rw [hbytes.packed, Option.bind_some] at hsome
  obtain ⟨img, himg, hsome⟩ := Option.bind_eq_some_iff.mp hsome
  obtain ⟨⟨t, ok⟩, hm, hsome⟩ := Option.bind_eq_some_iff.mp hsome
  obtain ⟨g, hg, hsome⟩ := Option.bind_eq_some_iff.mp hsome
  obtain ⟨⟨u, l, p⟩, hcreate, hsome⟩ := Option.map_eq_some_iff.mp hsome
  obtain ⟨rfl, hshort, hp⟩ : ok = true ∧ bytes.length < 512 ∧ p ≠ 0 := of_decide_eq_true hsome
  have hi : Installed [initBlob bytes] (goodDisk img) t := ⟨fun _ => 0, 0xC0100000, [],
    unmounted, img, by decide, by decide, .nil _, himg, goodDisk_stored _, hm⟩
  have hboot : (systemOf highRamConfig g).Boot highRamConfig :=
    ⟨by decide +kernel, ⟨_, g, [], ⟨g, []⟩, hg, .nil _, rfl⟩,
      ⟨_, [], _, .nil _, rfl, rfl⟩, fun _ => rfl, rfl⟩
  have hroom : 0x80000000 + Mkfs.alignUp bytes.length ≤ 4294967296 := by
    unfold Mkfs.alignUp
    omega
  obtain ⟨⟨u', l', p', hr', hruns⟩, -⟩ := (countedRun_runs_installed hi hboot rfl (.nil _)
    (by decide : (0 : UInt8) ∉ [105, 110, 105, 116]) 3 (fun _ => none)
    (Vector.replicate knameSize 0) fun _ => 1).1
      (initBlob bytes) tinyElf [tinyPhdr] 0x80000000 rfl hbytes (by decide) hroom
  dsimp only at hcreate
  rw [hcreate] at hr'
  obtain ⟨rfl, rfl, rfl⟩ : u = u' ∧ l = l' ∧ p = p' := by simpa using hr'
  exact ⟨bytes, img, t, _, _, u, l, p, hi, hboot, .nil _, hcreate, hp, hruns hp⟩

end Leg

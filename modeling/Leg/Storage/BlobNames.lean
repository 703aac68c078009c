import Leg.Storage.Mounted

/-! `fs_blob_name`: when the name of a blob can be read as a terminated string. -/
namespace Leg
open Memory

namespace Fs
open HeapState
variable {s t : Fs} {d : Disk} {startSector i : ℕ} {blobs : List MkfsBlob} {b : MkfsBlob}

/-- `fs_blob_name` of the descriptor at an address. -/
def fsBlobName (s : Fs) (blob : ℕ) : ℕ :=
  u32 (s.names + (fsBlobAt s.heap.heap.mem blob).nameOffset)

namespace Mounted

theorem descAt (h : Mounted t blobs) (hi : blobs[i]? = some b) :
    t.fsBlobAddr i = t.blobs + fsBlobBytes * i ∧
      t.heap.heap.base ≤ t.fsBlobAddr i ∧ fsBlobAt t.heap.heap.mem (t.fsBlobAddr i) =
        ⟨Mkfs.dataOffset blobs i, b.data.length, ((blobs.take i).flatMap MkfsBlob.name).length,
          b.name.length, b.flags⟩ := by
  obtain ⟨hlt, -⟩ := List.getElem?_eq_some_iff.mp hi
  have hbuf := (h.buffers (List.ne_nil_of_length_pos (by omega))).1
  obtain ⟨-, hlo, hhi, hfits⟩ := HeapOk.mem_bounds h.ok hbuf
  dsimp only at hlo hhi
  have hin : fsBlobBytes * i < fsBlobBytes * blobs.length := by
    unfold fsBlobBytes
    omega
  have haddr : t.fsBlobAddr i = t.blobs + fsBlobBytes * i := by
    unfold fsBlobAddr
    rw [h.count, if_neg (by omega)]
    exact u32_of_lt (by omega)
  rw [haddr]
  exact ⟨rfl, by omega, h.descs i _ (Mkfs.descs_getElem hi)⟩

/-- Where the name of a blob lies: its bytes, and then those of the names after it. -/
theorem nameAt (h : Mounted t blobs) (hi : blobs[i]? = some b) :
    t.fsBlobName (t.fsBlobAddr i) =
        t.names + ((blobs.take i).flatMap MkfsBlob.name).length ∧
      t.fsBlobName (t.fsBlobAddr i) + b.name.length < 4294967296 ∧
      t.heap.heap.mem.Stored (t.fsBlobName (t.fsBlobAddr i))
        (b.name ++ (blobs.drop (i + 1)).flatMap MkfsBlob.name) := by
  obtain ⟨hlt, hget⟩ := List.getElem?_eq_some_iff.mp hi
  obtain ⟨-, -, hdesc⟩ := h.descAt hi
  have hbuf := (h.buffers (List.ne_nil_of_length_pos (by omega))).2
  obtain ⟨-, hlo, hhi, hfits⟩ := HeapOk.mem_bounds h.ok hbuf
  have hsplit : Mkfs.nameData blobs = (blobs.take i).flatMap MkfsBlob.name ++
      (b.name ++ (blobs.drop (i + 1)).flatMap MkfsBlob.name) := by
    rw [Mkfs.nameData, ← List.flatMap_cons, ← hget, List.getElem_cons_drop, ← List.flatMap_append,
      List.take_append_drop]
  have hlen := congrArg List.length hsplit
  rw [List.length_append, List.length_append] at hlen
  dsimp only at hhi
  have haddr : t.fsBlobName (t.fsBlobAddr i) =
      t.names + ((blobs.take i).flatMap MkfsBlob.name).length := by
    unfold fsBlobName
    rw [hdesc]
    exact u32_of_lt (by dsimp only; omega)
  have hnames := h.names
  rw [hsplit, stored_append] at hnames
  rw [haddr]
  exact ⟨rfl, by omega, hnames.2⟩

/-- The name of a blob is terminated exactly if no other name follows it and the byte behind the
names happens to be zero. -/
theorem name_iff (h : Mounted t blobs) (hnul : ∀ c ∈ blobs, (0 : UInt8) ∉ c.name)
    (hi : blobs[i]? = some b) :
    IsCString t.heap.heap.mem (t.fsBlobName (t.fsBlobAddr i)) b.name ↔
      (∀ c ∈ blobs.drop (i + 1), c.name = []) ∧
        t.heap.heap.mem (t.names + (Mkfs.nameData blobs).length) = 0 := by
  obtain ⟨haddr, -, hstored⟩ := h.nameAt hi
  obtain ⟨hname, hrest⟩ := stored_append.mp hstored
  unfold IsCString
  rw [and_iff_right hname]
  by_cases hlast : (blobs.drop (i + 1)).flatMap MkfsBlob.name = []
  · have hall : ∀ c ∈ blobs.drop (i + 1), c.name = [] := List.flatMap_eq_nil_iff.mp hlast
    have hend : t.fsBlobName (t.fsBlobAddr i) + b.name.length =
        t.names + (Mkfs.nameData blobs).length := by
      obtain ⟨hlt, hget⟩ := List.getElem?_eq_some_iff.mp hi
      have hdata : Mkfs.nameData blobs = (blobs.take i).flatMap MkfsBlob.name ++ b.name := by
        rw [Mkfs.nameData]
        conv_lhs => rw [← List.take_append_drop i blobs, ← List.getElem_cons_drop hlt, hget]
        rw [List.flatMap_append, List.flatMap_cons, hlast, List.append_nil]
      rw [haddr, hdata, List.length_append, Nat.add_assoc]
    rw [hend, and_iff_right hall]
  · -- the byte behind the name is the first of the next name
    have hpos := List.length_pos_iff.mpr hlast
    have hfirst := hrest 0 hpos
    rw [Nat.add_zero] at hfirst
    have hmem := List.getElem_mem hpos
    obtain ⟨c, hc, hbyte⟩ := List.mem_flatMap.mp hmem
    have hne : t.heap.heap.mem (t.fsBlobName (t.fsBlobAddr i) + b.name.length) ≠ 0 := by
      rw [hfirst]
      intro hzero
      rw [hzero] at hbyte
      exact hnul c (List.mem_of_mem_drop hc) hbyte
    refine iff_of_false hne ?_
    rintro ⟨hall, -⟩
    exact hlast (List.flatMap_eq_nil_iff.mpr hall)

end Mounted

theorem strncmp_iff {m : Memory} {a : ℕ} {name : List UInt8} (hnul : (0 : UInt8) ∉ name) :
    (strncmp m a name).1 = true ↔ m.Stored a name := by
  induction name generalizing a with
  | nil => exact iff_of_true rfl stored_nil
  | cons c cs ih =>
    have hc : c ≠ 0 := fun hzero => hnul (hzero ▸ List.mem_cons_self ..)
    rw [stored_cons, strncmp]
    by_cases hbyte : m a = c
    · have hpass : m a ≠ 0 ∧ m a = c := ⟨hbyte ▸ hc, hbyte⟩
      rw [if_pos hpass, and_iff_right hbyte]
      exact ih fun hmem => hnul (List.mem_cons_of_mem _ hmem)
    · rw [if_neg fun hboth => hbyte hboth.2]
      simp [hbyte]

/-- `fs_find` gives the first of the blobs with the name. -/
theorem Mounted.findLoop_eq (h : Mounted t blobs) {name : List UInt8}
    (hnul : (0 : UInt8) ∉ name) (k : ℕ) : ∀ {i : ℕ}, i + k = blobs.length →
    (t.findLoop name k i).1 = match (blobs.drop i).findIdx? fun b => b.name == name with
      | none => 0
      | some j => t.fsBlobAddr (i + j) := by
  induction k with
  | zero =>
    intro i hi
    rw [List.drop_eq_nil_of_le (by omega)]
    rfl
  | succ k ih =>
    intro i hi
    have hlt : i < blobs.length := by omega
    have hget := List.getElem?_eq_getElem hlt
    obtain ⟨haddr, -, hdesc⟩ := h.descAt hget
    obtain ⟨-, -, hstored⟩ := h.nameAt hget
    have hloop : u32 (t.blobs + fsBlobBytes * i) = t.fsBlobAddr i := by
      unfold fsBlobAddr
      rw [h.count, if_neg (by omega)]
    have hname : u32 (t.names + ((blobs.take i).flatMap MkfsBlob.name).length) =
        t.fsBlobName (t.fsBlobAddr i) := by
      unfold fsBlobName
      rw [hdesc]
    have hrest := ih (show i + 1 + k = blobs.length by omega)
    rw [findLoop, List.drop_eq_getElem_cons hlt, List.findIdx?_cons]
    dsimp only
    rw [hloop, hdesc]
    dsimp only
    rw [hname]
    have hfound : blobs[i].name.length = name.length →
        ((strncmp t.heap.heap.mem (t.fsBlobName (t.fsBlobAddr i)) name).1 = true ↔
          blobs[i].name = name) := by
      intro hlen
      rw [strncmp_iff hnul]
      constructor
      · intro hother
        refine List.ext_getElem hlen fun j h1 h2 => ?_
        rw [← (stored_append.mp hstored).1 j h1, hother j h2]
      · rintro heq
        exact heq ▸ (stored_append.mp hstored).1
    by_cases heq : blobs[i].name = name
    · have hlen := congrArg List.length heq
      rw [if_pos hlen, if_pos ((hfound hlen).mpr heq), if_pos (beq_iff_eq.mpr heq)]
      rfl
    · have hbeq : ¬(blobs[i].name == name) = true := fun hb => heq (beq_iff_eq.mp hb)
      have hnext : (t.findLoop name k (i + 1)).1 =
          match Option.map (fun j => j + 1)
            ((blobs.drop (i + 1)).findIdx? fun b => b.name == name) with
          | none => 0
          | some j => t.fsBlobAddr (i + j) := by
        rw [hrest]
        cases (blobs.drop (i + 1)).findIdx? fun b => b.name == name with
        | none => rfl
        | some j =>
          show t.fsBlobAddr (i + 1 + j) = t.fsBlobAddr (i + (j + 1))
          rw [Nat.add_assoc, Nat.add_comm 1 j]
      rw [if_neg hbeq]
      split
      next hlen =>
        rw [if_neg fun hs => heq ((hfound hlen).mp hs)]
        exact hnext
      next => exact hnext

theorem Mounted.fsFind_eq (h : Mounted t blobs) {name : List UInt8}
    (hnul : (0 : UInt8) ∉ name) :
    (t.fsFind name).1 = match blobs.findIdx? fun b => b.name == name with
      | none => 0
      | some j => t.fsBlobAddr j := by
  unfold fsFind
  rw [h.count, h.findLoop_eq hnul _ (Nat.zero_add _), List.drop_zero]
  simp only [Nat.zero_add]

section Reachable
variable {mem : Memory} {heapVa : ℕ} {ops : List HeapOp} {img : List UInt8}

/-- For every image of `build_fs` that a mount accepts, after any run of the heap's calls. -/
theorem blob_name_iff (hpos : 0 < heapVa) (hfits : heapVa + kheapSize < 4294967296)
    (hr : Runs.Run HeapStep ⟨kheapInit mem heapVa, []⟩ ops s.heap)
    (hb : Mkfs.buildFs blobs = some img) (hd : d.bytes.Stored (startSector * 512) img)
    (hm : s.fsMount d startSector = some (t, true)) (hnul : ∀ c ∈ blobs, (0 : UInt8) ∉ c.name)
    (hi : blobs[i]? = some b) :
    IsCString t.heap.heap.mem (t.fsBlobName (t.fsBlobAddr i)) b.name ↔
      (∀ c ∈ blobs.drop (i + 1), c.name = []) ∧
        t.heap.heap.mem (t.names + (Mkfs.nameData blobs).length) = 0 :=
  (fsMount_mounted (heapRun_heapOk hpos hfits hr).2 hb hd hm).1.name_iff hnul hi

/-- Two blobs with the names `a` and `b`. -/
def twoNames : List MkfsBlob := [⟨[97], [], 1⟩, ⟨[98], [], 1⟩]

/-- Their image. -/
def twoNamesImage : List UInt8 := (Mkfs.buildFs twoNames).getD []

theorem goodDisk_stored (bytes : List UInt8) : (goodDisk bytes).bytes.Stored 0 bytes := by
  intro k hk
  rw [Nat.zero_add]
  exact (List.getElem_eq_getD 0).symm

theorem mounted_of_goodDisk (hb : Mkfs.buildFs blobs = some img)
    (ht : unmounted.fsMount (goodDisk img) 0 = some (t, true)) :
    Mounted t blobs ∧ t.heap.heap.base = 0xC0100000 := by
  have hr : Runs.Run HeapStep ⟨kheapInit (fun _ => 0) 0xC0100000, []⟩ [] unmounted.heap := .nil _
  have hok := (heapRun_heapOk (by decide) (by decide) hr).2
  have hd : (goodDisk img).bytes.Stored (0 * 512) img := goodDisk_stored _
  exact fsMount_mounted hok hb hd ht

theorem twoNames_built : Mkfs.buildFs twoNames = some twoNamesImage := by decide +kernel

/-- The last of the names is terminated. -/
theorem two_names_last : ∃ t, unmounted.fsMount (goodDisk twoNamesImage) 0 = some (t, true) ∧
    IsCString t.heap.heap.mem (t.fsBlobName (t.fsBlobAddr 1)) [98] := by
  have htest : ((unmounted.fsMount (goodDisk twoNamesImage) 0).any fun r =>
      r.2 && r.1.heap.heap.mem (r.1.names + 2) == 0) = true := by decide +kernel
  obtain ⟨⟨t, ok⟩, ht, hok⟩ := (Option.any_eq_true _ _).mp htest
  obtain ⟨rfl, hzero⟩ := (Bool.and_eq_true _ _).mp hok
  have hr : Runs.Run HeapStep ⟨kheapInit (fun _ => 0) 0xC0100000, []⟩ [] unmounted.heap := .nil _
  have hlast : twoNames[1]? = some ⟨[98], [], 1⟩ := rfl
  have hd : (goodDisk twoNamesImage).bytes.Stored (0 * 512) twoNamesImage := goodDisk_stored _
  have hbehind : t.heap.heap.mem (t.names + (Mkfs.nameData twoNames).length) = 0 :=
    beq_iff_eq.mp hzero
  exact ⟨t, ht, (blob_name_iff (by decide) (by decide) hr twoNames_built hd ht (by decide)
    hlast).mpr
    ⟨by decide, hbehind⟩⟩

/-- The first name runs on into the second. -/
theorem two_names_first : Mkfs.buildFs twoNames = some twoNamesImage ∧
    ∃ t, unmounted.fsMount (goodDisk twoNamesImage) 0 = some (t, true) ∧
      ¬IsCString t.heap.heap.mem (t.fsBlobName (t.fsBlobAddr 0)) [97] := by
  have htest : ((unmounted.fsMount (goodDisk twoNamesImage) 0).any fun r =>
      r.2 && r.1.heap.heap.mem (r.1.fsBlobName (r.1.fsBlobAddr 0) + 1) == 98) = true := by
    decide +kernel
  obtain ⟨⟨t, ok⟩, ht, hok⟩ := (Option.any_eq_true _ _).mp htest
  obtain ⟨rfl, hnext⟩ := (Bool.and_eq_true _ _).mp hok
  refine ⟨twoNames_built, t, ht, fun hstring => ?_⟩
  exact absurd (hstring.2.symm.trans (beq_iff_eq.mp hnext)) (by decide)

end Reachable

end Fs

end Leg

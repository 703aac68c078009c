import Leg.Memory.Layout
import Leg.Storage.BlobNames

/-! `svc_fs_blob_info`: what the call leaves in the caller's buffers, and how that differs from
its declaration on the user's side. -/
namespace Leg

theorem HeapOk.outside {s : KHeap} {live : List Client} (h : HeapOk s live) {m : Memory}
    (hag : Memory.Agree s.mem m s.base (s.base + kheapSize)) :
    HeapOk { s with mem := m } live := by
  obtain ⟨blocks, hrep, hsep, hperm⟩ := h
  exact ⟨blocks, ⟨hrep.base_pos, hrep.capacity, hrep.fits,
    hrep.laid.transport (by rw [hrep.covers]; exact hag), hrep.covers, hrep.freeList, hrep.used⟩,
    hsep, hperm⟩

namespace Fs
open HeapState Memory

/-- The same filesystem over another memory. -/
def withMem (s : Fs) (m : Memory) : Fs :=
  { s with heap := { s.heap with heap := { s.heap.heap with mem := m } } }

/-- A store of a byte. -/
def storeByte (s : Fs) (a : ℕ) (v : UInt8) : Fs := s.withMem (Function.update s.heap.heap.mem a v)

/-- A store of a word. -/
def storeWord (s : Fs) (a v : ℕ) : Fs := s.withMem (s.heap.heap.mem.store a v)

/-- The loop of `svc_fs_blob_info` from the `i`-th byte on, with `n` bytes left. -/
def copyName (blob nameBuf : ℕ) : (n i : ℕ) → Fs → Fs
  | 0, _, s => s
  | n + 1, i, s =>
    copyName blob nameBuf n (i + 1)
      (s.storeByte (u32 (nameBuf + i)) (s.heap.heap.mem (u32 (s.fsBlobName blob + i))))

/-- `svc_fs_blob_info`, with what it returns. -/
def svcFsBlobInfo (s : Fs) (loc nameBuf bufSize sizeOut : ℕ) : Fs × ℕ :=
  let b := s.fsBlobAddr loc
  if b = 0 then (s, 0)
  else
    let nameSize := (fsBlobAt s.heap.heap.mem b).nameSize
    let copyLen := if wsub bufSize 1 < nameSize then wsub bufSize 1 else nameSize
    let s := copyName b nameBuf copyLen 0 s
    let s := s.storeByte (u32 (nameBuf + copyLen)) 0
    let s := if sizeOut ≠ 0 then s.storeWord sizeOut copyLen else s
    (s, b)

/-- What the call is declared to do for a blob. -/
structure BlobInfoRight (s : Fs) (b : MkfsBlob) (nameBuf bufSize sizeOut : ℕ) (r : Fs × ℕ) :
    Prop where
  frame : ∀ a, ¬(nameBuf ≤ a ∧ a < nameBuf + bufSize) → ¬(sizeOut ≤ a ∧ a < sizeOut + 4) →
    r.1.heap.heap.mem a = s.heap.heap.mem a
  name : 0 < bufSize → IsCString r.1.heap.heap.mem nameBuf (b.name.take (bufSize - 1))
  size : r.1.heap.heap.mem.load sizeOut = b.data.length
  returns : r.2 = b.name.length

/-- The declared behaviour of the call for an index: nothing out of range, else the blob. -/
def BlobInfoContract (s : Fs) (blobs : List MkfsBlob) (index nameBuf bufSize sizeOut : ℕ) : Prop :=
  match blobs[index]? with
  | none => (s.svcFsBlobInfo index nameBuf bufSize sizeOut).2 = 0
  | some b => BlobInfoRight s b nameBuf bufSize sizeOut
      (s.svcFsBlobInfo index nameBuf bufSize sizeOut)

variable {s : Fs} {blobs : List MkfsBlob} {b : MkfsBlob} {i nameBuf bufSize sizeOut : ℕ}

theorem svcFsBlobInfo_returns (s : Fs) (i nameBuf bufSize sizeOut : ℕ) :
    (s.svcFsBlobInfo i nameBuf bufSize sizeOut).2 = s.fsBlobAddr i := by
  unfold svcFsBlobInfo
  dsimp only
  split
  next hzero => exact hzero.symm
  next => rfl

/-- On a mounted filesystem the call keeps its declaration only for an index out of range. -/
theorem blob_info_iff (h : Mounted s blobs) (hva : kernelVa ≤ s.heap.heap.base)
    (i nameBuf bufSize sizeOut : ℕ) :
    BlobInfoContract s blobs i nameBuf bufSize sizeOut ↔ blobs.length ≤ i := by
  unfold BlobInfoContract
  cases hi : blobs[i]? with
  | none =>
    have hout := List.getElem?_eq_none_iff.mp hi
    refine iff_of_true ?_ hout
    rw [svcFsBlobInfo_returns]
    unfold fsBlobAddr
    rw [h.count, if_pos hout]
  | some b =>
    obtain ⟨hlt, -⟩ := List.getElem?_eq_some_iff.mp hi
    refine iff_of_false ?_ (by omega)
    rintro ⟨-, -, -, hreturns⟩
    rw [svcFsBlobInfo_returns] at hreturns
    obtain ⟨-, hlow, -⟩ := h.descAt hi
    obtain ⟨off, hoff⟩ := Mkfs.descs_get hi
    have hpacks := h.fits _ (List.mem_of_getElem? hoff)
    simp only [Mkfs.packs, Bool.and_eq_true, decide_eq_true_eq] at hpacks
    have hname := hpacks.1.2
    unfold kernelVa at hva
    omega

/-- For the two blobs the third index is out of range. -/
theorem blob_info_third : ∃ t, unmounted.fsMount (goodDisk twoNamesImage) 0 = some (t, true) ∧
    BlobInfoContract t twoNames 2 0x8000 64 0x9000 := by
  have htest : ((unmounted.fsMount (goodDisk twoNamesImage) 0).any fun r => r.2) = true := by
    decide +kernel
  obtain ⟨⟨t, ok⟩, ht, rfl⟩ := (Option.any_eq_true _ _).mp htest
  obtain ⟨hmounted, hbase⟩ := mounted_of_goodDisk twoNames_built ht
  have hva : kernelVa ≤ t.heap.heap.base := by
    rw [hbase]
    decide
  exact ⟨t, ht, (blob_info_iff hmounted hva 2 0x8000 64 0x9000).mpr (by decide)⟩

/-- The call for the first of them does not return 1, the length of its name. -/
theorem blob_info_first : ∃ t, unmounted.fsMount (goodDisk twoNamesImage) 0 = some (t, true) ∧
    ¬BlobInfoContract t twoNames 0 0x8000 64 0x9000 := by
  have htest : ((unmounted.fsMount (goodDisk twoNamesImage) 0).any fun r =>
      r.2 && (r.1.svcFsBlobInfo 0 0x8000 64 0x9000).2 != 1) = true := by decide +kernel
  obtain ⟨⟨t, ok⟩, ht, hok⟩ := (Option.any_eq_true _ _).mp htest
  obtain ⟨rfl, hne⟩ := (Bool.and_eq_true _ _).mp hok
  refine ⟨t, ht, ?_⟩
  rintro ⟨-, -, -, hreturns⟩
  exact absurd hreturns (bne_iff_ne.mp hne)

section User

/-- What happens outside the kernel heap leaves the filesystem mounted. -/
theorem Mounted.withMem (h : Mounted s blobs) {m : Memory}
    (hag : ∀ a, s.heap.heap.base ≤ a → m a = s.heap.heap.mem a) :
    Mounted (s.withMem m) blobs := by
  refine ⟨HeapOk.outside h.ok fun a ha _ => hag a ha, h.count, h.fits, ?_, ?_, h.buffers⟩
  · intro j c hj
    obtain ⟨hlt, -⟩ := List.getElem?_eq_some_iff.mp hj
    rw [Mkfs.descs_length] at hlt
    have hlow := (HeapOk.mem_bounds h.ok (h.buffers (List.ne_nil_of_length_pos (by omega))).1).2.1
    dsimp only at hlow
    rw [← h.descs j c hj]
    apply fsBlobAt_congr
    intro k _
    exact hag _ (by dsimp only [Fs.withMem]; omega)
  · by_cases hne : blobs = []
    · subst hne
      exact stored_nil
    have hlow := (HeapOk.mem_bounds h.ok (h.buffers hne).2).2.1
    dsimp only at hlow
    apply h.names.congr
    intro k _
    exact hag _ (by dsimp only [Fs.withMem]; omega)

/-- The copy puts the bytes of the name into a buffer below the kernel. -/
theorem copyName_eq (hi : blobs[i]? = some b) (n : ℕ) : ∀ {k : ℕ} {s : Fs}, Mounted s blobs →
    kernelVa ≤ s.heap.heap.base → k + n ≤ b.name.length → nameBuf + (k + n) ≤ kernelVa →
    copyName (s.fsBlobAddr i) nameBuf n k s =
      s.withMem (s.heap.heap.mem.put (nameBuf + k) n fun j => b.name.getD (k + j) 0) := by
  induction n with
  | zero =>
    intro k s _ _ _ _
    have hput : s.heap.heap.mem.put (nameBuf + k) 0 (fun j => b.name.getD (k + j) 0) =
        s.heap.heap.mem := by
      funext a
      unfold Memory.put
      rw [if_neg (by omega)]
    rw [copyName, hput]
    rfl
  | succ n ih =>
    intro k s h hva hname hbuf
    obtain ⟨-, hend, hstored⟩ := h.nameAt hi
    have hdst : u32 (nameBuf + k) = nameBuf + k := by
      unfold kernelVa at hbuf
      exact u32_of_lt (by omega)
    have hsrc : u32 (s.fsBlobName (s.fsBlobAddr i) + k) = s.fsBlobName (s.fsBlobAddr i) + k :=
      u32_of_lt (by omega)
    have hbyte : s.heap.heap.mem (s.fsBlobName (s.fsBlobAddr i) + k) = b.name.getD k 0 := by
      rw [(stored_append.mp hstored).1 k (by omega)]
      exact List.getElem_eq_getD 0
    have hmounted : Mounted (s.storeByte (nameBuf + k) (b.name.getD k 0)) blobs :=
      h.withMem fun a ha => Function.update_of_ne (by omega) _ _
    rw [copyName, hdst, hsrc, hbyte]
    refine (ih hmounted hva (by omega) (by omega)).trans ?_
    rw [put_succ]
    simp only [Nat.add_assoc, Nat.add_comm 1]
    rfl

/-- In proper buffers of the user the call leaves the terminated prefix of the name that fits and
the number of its characters, and it changes nothing else. -/
theorem svcFsBlobInfo_user (h : Mounted s blobs) (hva : kernelVa ≤ s.heap.heap.base)
    (hi : blobs[i]? = some b) (hpos : 0 < bufSize) (hbuf : nameBuf + bufSize ≤ kernelVa)
    (hout : 0 < sizeOut)
    (hapart : sizeOut + 4 ≤ nameBuf ∨ nameBuf + bufSize ≤ sizeOut) :
    ∃ m, s.svcFsBlobInfo i nameBuf bufSize sizeOut = (s.withMem m, s.fsBlobAddr i) ∧
      IsCString m nameBuf (b.name.take (bufSize - 1)) ∧
      m.load sizeOut = min (bufSize - 1) b.name.length ∧
      ∀ a, ¬(nameBuf ≤ a ∧ a < nameBuf + bufSize) → ¬(sizeOut ≤ a ∧ a < sizeOut + 4) →
        m a = s.heap.heap.mem a := by
  obtain ⟨-, hlow, hdesc⟩ := h.descAt hi
  have hlen : (if bufSize - 1 < b.name.length then bufSize - 1 else b.name.length) =
      (b.name.take (bufSize - 1)).length := by
    rw [List.length_take]
    split <;> omega
  generalize htake : b.name.take (bufSize - 1) = name at *
  have hshort : name.length ≤ bufSize - 1 := by
    rw [← htake, List.length_take]
    omega
  have hname : name.length ≤ b.name.length := by
    rw [← htake, List.length_take]
    omega
  have hbytes : (s.heap.heap.mem.put nameBuf name.length fun j => b.name.getD (0 + j) 0) =
      s.heap.heap.mem.put nameBuf name.length fun j => name.getD j 0 := by
    funext a
    unfold Memory.put
    split
    next hin =>
      dsimp only
      rw [← htake, Nat.zero_add, List.getD_eq_getElem?_getD, List.getD_eq_getElem?_getD,
        List.getElem?_take_of_lt (by omega)]
    next => rfl
  have hcopy : copyName (s.fsBlobAddr i) nameBuf name.length 0 s =
      s.withMem (s.heap.heap.mem.put nameBuf name.length fun j => name.getD j 0) := by
    rw [← hbytes]
    exact copyName_eq hi name.length h hva (by omega) (by omega)
  have hkernel : kernelVa < 4294967296 := by decide
  have hsub : wsub bufSize 1 = bufSize - 1 := wsub_of_le hpos (by omega)
  have hend : u32 (nameBuf + name.length) = nameBuf + name.length := u32_of_lt (by omega)
  have hb : ¬s.fsBlobAddr i = 0 := by
    unfold kernelVa at hva
    omega
  generalize hm : (s.heap.heap.mem.put nameBuf name.length fun j => name.getD j 0) = m at *
  have hcall : s.svcFsBlobInfo i nameBuf bufSize sizeOut =
      (s.withMem (store (Function.update m (nameBuf + name.length) 0) sizeOut name.length),
        s.fsBlobAddr i) := by
    unfold svcFsBlobInfo
    dsimp only
    rw [if_neg hb, hdesc]
    dsimp only
    rw [hsub, hlen, hcopy, hend, if_pos hout.ne']
    rfl
  have hstored : m.Stored nameBuf name := hm ▸ put_stored s.heap.heap.mem nameBuf name
  have hagree : Agree (Function.update m (nameBuf + name.length) 0)
      (store (Function.update m (nameBuf + name.length) 0) sizeOut name.length)
      nameBuf (nameBuf + bufSize) := store_agree _ _ _ (by omega)
  refine ⟨_, hcall, ⟨?_, ?_⟩, ?_, ?_⟩
  · intro k hk
    rw [hagree _ (by omega) (by omega), Function.update_of_ne (by omega)]
    exact hstored k hk
  · rw [hagree _ (by omega) (by omega), Function.update_self]
  · rw [load_store_self _ _ (by omega), ← htake, List.length_take]
  · intro a hname' hout'
    have hframe := store_agree (Function.update m (nameBuf + name.length) 0) sizeOut name.length
      (show a + 1 ≤ sizeOut ∨ sizeOut + 4 ≤ a by omega)
    rw [hframe a (le_refl _) (Nat.lt_succ_self a), Function.update_of_ne (by omega), ← hm]
    exact put_agree _ _ _ _ (show a + 1 ≤ nameBuf ∨ nameBuf + name.length ≤ a by omega) a
      (le_refl _) (Nat.lt_succ_self a)

end User

end Fs

end Leg

import Leg.Device.Virtio
import Leg.Process.ForkReach
import Leg.Process.SpaceBuild

/-! The block device driver of `blk.c`, and what its data descriptor tells the device about the
buffer of a system call or of the filesystem. -/
namespace Leg
open Runs

def virtioBlkTIn : ℕ := 0

def virtioBlkTOut : ℕ := 1

def virtioBlkSOk : ℕ := 0

/-- `virtio_blk_req_hdr_t`. -/
structure BlkReqHdr where
  type : ℕ
  sector : ℕ

/-- The statics of `blk.c`; `hdrVa` and `statusVa` are their addresses. -/
structure Blk where
  hdrVa : ℕ
  statusVa : ℕ
  hdr : BlkReqHdr
  status : ℕ
  desc : ℕ → VqDesc
  availRing : ℕ → ℕ
  availIdx : ℕ
  lastUsedIdx : ℕ

namespace Blk
variable (kernelPhysBase : ℕ) (b : Blk)

/-- The chain of three descriptors that `do_request` builds. -/
def chain (type count buf : ℕ) : ℕ → VqDesc
  | 0 => ⟨virtToPhys kernelPhysBase b.hdrVa, 16, vdescFNext, 1⟩
  | 1 => ⟨virtToPhys kernelPhysBase buf, u32 (count * 512),
      (if type = virtioBlkTIn then vdescFWrite else 0) ||| vdescFNext, 2⟩
  | 2 => ⟨virtToPhys kernelPhysBase b.statusVa, 1, vdescFWrite, 0⟩
  | i => b.desc i

/-- `do_request` up to the notification of the device. -/
def submit (type sector count buf : ℕ) : Blk :=
  { b with
    hdr := ⟨type, sector⟩
    status := 0xFF
    desc := b.chain kernelPhysBase type count buf
    availRing := Function.update b.availRing (b.availIdx % queueSize) 0
    availIdx := u16 (b.availIdx + 1) }

variable (device : Blk → ℕ)

/-- `do_request`; `device` gives the status that the device writes before it uses the chain. -/
def doRequest (type sector count buf : ℕ) : Blk × Bool :=
  let b := b.submit kernelPhysBase type sector count buf
  ({ b with status := device b, lastUsedIdx := u16 (b.lastUsedIdx + 1) }, device b = virtioBlkSOk)

def blkRead (sector count buf : ℕ) : Blk × Bool :=
  b.doRequest kernelPhysBase device virtioBlkTIn sector count buf

def blkWrite (sector count buf : ℕ) : Blk × Bool :=
  b.doRequest kernelPhysBase device virtioBlkTOut sector count buf

def svcBlkRead (r0 r1 r2 r3 : ℕ) : Blk × Bool :=
  b.blkRead kernelPhysBase device (r0 ||| r1 <<< 32) r2 r3

def svcBlkWrite (r0 r1 r2 r3 : ℕ) : Blk × Bool :=
  b.blkWrite kernelPhysBase device (r0 ||| r1 <<< 32) r2 r3

end Blk

/-- The calls that reach the driver: two system calls and the reads of the filesystem. -/
inductive BlkCall where
  | svcRead (r0 r1 r2 r3 : ℕ)
  | svcWrite (r0 r1 r2 r3 : ℕ)
  | fsRead (sector count buf : ℕ)

namespace BlkCall

def count : BlkCall → ℕ
  | svcRead _ _ r2 _ | svcWrite _ _ r2 _ => r2
  | fsRead _ count _ => count

def buf : BlkCall → ℕ
  | svcRead _ _ _ r3 | svcWrite _ _ _ r3 => r3
  | fsRead _ _ buf => buf

def run (kernelPhysBase : ℕ) (device : Blk → ℕ) (b : Blk) : BlkCall → Blk × Bool
  | svcRead r0 r1 r2 r3 => b.svcBlkRead kernelPhysBase device r0 r1 r2 r3
  | svcWrite r0 r1 r2 r3 => b.svcBlkWrite kernelPhysBase device r0 r1 r2 r3
  | fsRead sector count buf => b.blkRead kernelPhysBase device sector count buf

theorem run_desc (kernelPhysBase : ℕ) (device : Blk → ℕ) (b : Blk) (call : BlkCall) :
    ((call.run kernelPhysBase device b).1.desc 1).addr = virtToPhys kernelPhysBase call.buf ∧
      ((call.run kernelPhysBase device b).1.desc 1).len = u32 (call.count * 512) := by
  cases call <;> exact ⟨rfl, rfl⟩

end BlkCall

/-- What the tables of the process `pgd` make of `va`. -/
def userWalk (kernelPhysBase : ℕ) (vm : Vm) (pgd va : ℕ) : Option ℕ :=
  walk (vm.l1 pgd) (fun phys => vm.l2 (physToVirt kernelPhysBase phys)) va

namespace BootConfig
variable (c : BootConfig) (f : FoundTables) (vm : Vm) (pgd : ℕ)

/-- The translation while the process runs: its own table up to `PROC_USER_VA_TOP`, above it the
kernel's. -/
def translate (va : ℕ) : Option ℕ :=
  if va < procUserVaTop then userWalk c.kernelPhysBase vm pgd va else c.kernelWalk f va

/-- The device sees the `n` bytes from `buf` on, in their order. -/
structure Transfers (buf n : ℕ) (d : VqDesc) : Prop where
  len : d.len = n
  bytes : ∀ i < n, c.translate f vm pgd (buf + i) = some (d.addr + i)

/-- The process has mapped the buffer. -/
def UserBuffer (buf n : ℕ) : Prop :=
  ∀ i < n, buf + i < procUserVaTop ∧ (c.translate f vm pgd (buf + i)).isSome

/-- The buffer lies in a block that a client of the heap holds, after any of the heap's calls. -/
def HeapBuffer (buf n : ℕ) : Prop :=
  ∃ mem ops st, Run HeapStep ⟨kheapInit mem c.heapVa, []⟩ ops st ∧
    ∃ e ∈ st.live, e.ptr = buf ∧ n ≤ e.bytes

/-- Below the user's top every page of the buffer is mapped to the page of its own number; in the
heap the mapping of the device tree is not in the way, and physical addresses do not wrap. -/
def Straight (buf n : ℕ) : Prop :=
  if buf < procUserVaTop then ∀ i < n,
    c.translate f vm pgd ((buf + i) / pageSize * pageSize) = some ((buf + i) / pageSize * pageSize)
  else (∀ i < n, c.kernelPhysBase = kernelVa ∨ ¬ c.OnTree ((buf + i) >>> mbShift)) ∧
    virtToPhys c.kernelPhysBase buf + n ≤ 4294967296

end BootConfig

/-- Within a page the walk adds the offset. -/
theorem walk_page (l1 : ℕ → ℕ) (l2 : ℕ → ℕ → ℕ) (va : ℕ) :
    walk l1 l2 va = (walk l1 l2 (va / pageSize * pageSize)).map fun p => p + va % pageSize := by
  have hslot : (va / pageSize * pageSize) >>> mbShift = va >>> mbShift := by
    simp only [Nat.shiftRight_eq_div_pow]
    unfold pageSize mbShift
    omega
  have hidx : l2Idx (va / pageSize * pageSize) = l2Idx va := by
    rw [l2Idx_eq, l2Idx_eq, Nat.mul_div_cancel _ (by decide)]
  have hsection : va / pageSize * pageSize % sectionSize + va % pageSize = va % sectionSize := by
    unfold pageSize sectionSize
    omega
  unfold walk
  rw [hslot, hidx, Nat.mul_mod_left]
  dsimp only
  split
  · simp only [Option.map_some, Nat.add_assoc, hsection]
  · split
    · split
      · rfl
      · rfl
    · rfl

section Transfer
variable {c : BootConfig} {f : FoundTables} {vm : Vm} {pgd : ℕ}

theorem translate_page {va : ℕ} (h : va < procUserVaTop) :
    c.translate f vm pgd va = (c.translate f vm pgd (va / pageSize * pageSize)).map fun p =>
      p + va % pageSize := by
  have hle : va / pageSize * pageSize < procUserVaTop :=
    (Nat.div_mul_le_self va pageSize).trans_lt h
  unfold BootConfig.translate
  rw [if_pos h, if_pos hle]
  exact walk_page _ _ va

theorem user_transfers_iff {buf count : ℕ} (hbuf : c.UserBuffer f vm pgd buf (count * 512))
    {d : VqDesc} (hd : d.addr = virtToPhys c.kernelPhysBase buf ∧ d.len = u32 (count * 512))
    (hlow : buf < procUserVaTop) :
    c.Transfers f vm pgd buf (count * 512) d ↔ c.Straight f vm pgd buf (count * 512) := by
  have hfits : count * 512 < 4294967296 := by
    by_contra hbig
    have := (hbuf (count * 512 - 1) (by omega)).1
    unfold procUserVaTop at this
    omega
  have haddr : d.addr = buf := by
    rw [hd.1]
    refine if_neg ?_
    unfold procUserVaTop kernelVa at *
    omega
  have hbyte (i : ℕ) (hi : i < count * 512) :
      c.translate f vm pgd (buf + i) = some (d.addr + i) ↔
        c.translate f vm pgd ((buf + i) / pageSize * pageSize) =
          some ((buf + i) / pageSize * pageSize) := by
    rw [translate_page (hbuf i hi).1, haddr, Option.map_eq_some_iff]
    constructor
    · rintro ⟨p, hp, hsum⟩
      rw [hp, show p = (buf + i) / pageSize * pageSize by unfold pageSize at *; omega]
    · intro hp
      exact ⟨_, hp, Nat.div_add_mod' _ _⟩
  unfold BootConfig.Straight
  rw [if_pos hlow]
  exact ⟨fun h i hi => (hbyte i hi).mp (h.bytes i hi),
    fun h => ⟨hd.2.trans (u32_of_lt hfits), fun i hi => (hbyte i hi).mpr (h i hi)⟩⟩

theorem heapBuffer_window {buf n : ℕ} (h : c.HeapBuffer buf n) :
    ∀ i < n, inKernelWindow (buf + i) := by
  obtain ⟨mem, ops, st, hrun, e, he, rfl, hn⟩ := h
  obtain ⟨-, hlow, hhigh⟩ := c.heapVa_bounds
  have hfits : c.heapVa + kheapSize < 4294967296 := by
    unfold stackBottom kheapSize at *
    omega
  obtain ⟨hbase, hok⟩ := heapRun_heapOk (by unfold kernelVa at hlow; omega) hfits hrun
  obtain ⟨-, hlo, hhi, -⟩ := hok.mem_bounds he
  rw [hbase] at hlo hhi
  intro i hi
  unfold inKernelWindow windowSections sectionSize
  unfold stackBottom kheapSize kernelVa at *
  omega

theorem heap_transfers_iff {buf count : ℕ} (hbuf : c.HeapBuffer buf (count * 512)) {d : VqDesc}
    (hd : d.addr = virtToPhys c.kernelPhysBase buf ∧ d.len = u32 (count * 512))
    (hhigh : ¬ buf < procUserVaTop) :
    c.Transfers f vm pgd buf (count * 512) d ↔ c.Straight f vm pgd buf (count * 512) := by
  have hwin := heapBuffer_window hbuf
  have hfits : count * 512 < 4294967296 := by
    by_contra hbig
    have := (hwin (count * 512 - 1) (by omega)).2
    unfold kernelVa windowSections sectionSize at this
    omega
  have htranslate (i : ℕ) (hi : i < count * 512) : c.translate f vm pgd (buf + i) =
      some (if c.OnTree ((buf + i) >>> mbShift) then buf + i
        else virtToPhys c.kernelPhysBase (buf + i)) := by
    unfold BootConfig.translate
    rw [if_neg (by omega), c.kernelWalk_window f (hwin i hi)]
  have hkpb : c.kernelPhysBase < 4294967296 := u32_lt _
  have hva (i : ℕ) (hi : i < count * 512) : virtToPhys c.kernelPhysBase (buf + i) =
      u32 (c.kernelPhysBase + (buf + i - kernelVa)) := if_pos (hwin i hi).1
  have hlen := hd.2.trans (u32_of_lt hfits)
  have hlt := virtToPhys_lt c.kernelPhysBase buf
  unfold BootConfig.Straight
  rw [if_neg hhigh]
  constructor
  · rintro ⟨-, hbytes⟩
    have hclear (i : ℕ) (hi : i < count * 512) :
        c.kernelPhysBase = kernelVa ∨ ¬ c.OnTree ((buf + i) >>> mbShift) := by
      refine or_iff_not_imp_right.mpr fun hon => ?_
      have hbyte := hbytes i hi
      have h0 := hva 0 (by omega)
      have hlo := (hwin 0 (by omega)).1
      have hhi := (hwin 0 (by omega)).2
      rw [htranslate i hi, if_pos (not_not.mp hon), hd.1] at hbyte
      have heq := Option.some.inj hbyte
      rw [Nat.add_zero] at h0 hlo hhi
      rw [h0] at heq
      unfold u32 kernelVa windowSections sectionSize at *
      omega
    refine ⟨hclear, Nat.le_of_not_lt fun hwrap => ?_⟩
    -- the first byte past the top of the physical addresses
    have hi : 4294967296 - virtToPhys c.kernelPhysBase buf < count * 512 := by omega
    have hbyte := hbytes _ hi
    rw [htranslate _ hi, hd.1, Nat.add_sub_cancel' (by omega)] at hbyte
    have heq := Option.some.inj hbyte
    have hwhi := (hwin _ hi).2
    split at heq
    next =>
      unfold kernelVa windowSections sectionSize at *
      omega
    next =>
      have := virtToPhys_lt c.kernelPhysBase (buf + (4294967296 - virtToPhys c.kernelPhysBase buf))
      omega
  · rintro ⟨hclear, hwrap⟩
    refine ⟨hlen, fun i hi => ?_⟩
    have h0 := hva 0 (by omega)
    have hlo := (hwin 0 (by omega)).1
    have hhi := (hwin i hi).2
    rw [htranslate i hi, hd.1, hva i hi]
    rw [Nat.add_zero] at h0 hlo
    rw [h0] at hwrap ⊢
    refine congrArg some ?_
    split
    next hon =>
      have heq := (hclear i hi).resolve_right (not_not.mpr hon)
      unfold u32 kernelVa windowSections sectionSize at *
      omega
    next =>
      unfold u32 kernelVa windowSections sectionSize at *
      omega

/-- The data descriptor of a call is, byte for byte, the caller's buffer under the current
translation exactly if that buffer lies straight. -/
theorem blkCall_transfers_iff (device : Blk → ℕ) (b : Blk) (call : BlkCall)
    (hbuf : c.UserBuffer f vm pgd call.buf (call.count * 512) ∨
      c.HeapBuffer call.buf (call.count * 512)) :
    c.Transfers f vm pgd call.buf (call.count * 512)
        ((call.run c.kernelPhysBase device b).1.desc 1) ↔
      c.Straight f vm pgd call.buf (call.count * 512) := by
  have hd := call.run_desc c.kernelPhysBase device b
  by_cases hlow : call.buf < procUserVaTop
  · rcases hbuf with hbuf | hbuf
    · exact user_transfers_iff hbuf hd hlow
    · rcases Nat.eq_zero_or_pos (call.count * 512) with h0 | hpos
      · exact user_transfers_iff (fun i hi => absurd hi (by omega)) hd hlow
      · have := (heapBuffer_window hbuf 0 hpos).1
        unfold kernelVa procUserVaTop at *
        omega
  · rcases hbuf with hbuf | hbuf
    · -- an empty buffer
      have h0 : call.count * 512 = 0 := by
        by_contra hne
        have := (hbuf 0 (by omega)).1
        omega
      have hlt := virtToPhys_lt c.kernelPhysBase call.buf
      unfold BootConfig.Straight
      rw [if_neg hlow]
      refine ⟨fun _ => ⟨fun i hi => absurd hi (by omega), by omega⟩,
        fun _ => ⟨?_, fun i hi => absurd hi (by omega)⟩⟩
      rw [hd.2, h0]
      rfl
    · exact heap_transfers_iff hbuf hd hlow

end Transfer

def idleBlk : Blk := ⟨0xC0000000, 0xC0000010, ⟨0, 0⟩, 0, fun _ => ⟨0, 0, 0, 0⟩, fun _ => 0, 0, 0⟩

/-- A process with one page, at the address where images are linked. -/
def oneUserPage : Vm where
  heap := kheapInit (fun _ => 0) 0xC0100000
  pmm := Pmm.start 0x40500000 0x40600000 0x40021000 fun _ => 0
  l1 := fun _ mb => if mb = 4 then l1TableEntry 0x40300400 else 0
  l2 := fun _ i => if i = 0 then l2PageEntry 0x40500000 else 0
  live := []

/-- A sector that the filesystem reads into a fresh heap block. -/
theorem fsRead_transfers : ∃ buf, highRamConfig.HeapBuffer buf 512 ∧
    highRamConfig.Transfers blankTables oneUserPage 0 buf 512
      (((BlkCall.fsRead 0 1 buf).run highRamConfig.kernelPhysBase
        (fun _ => 0) idleBlk).1.desc 1) := by
  have htest : ((HeapState.next ⟨kheapInit (fun _ => 0) highRamConfig.heapVa, []⟩
      (.malloc 512)).any fun st => decide (⟨0xC010000C, 512⟩ ∈ st.live)) = true := by
    decide +kernel
  obtain ⟨st, hst, hmem⟩ := (Option.any_eq_true _ _).mp htest
  have hheap : highRamConfig.HeapBuffer 0xC010000C 512 :=
    ⟨_, [.malloc 512], st, .single ⟨by show 512 ≤ kheapSize; decide, hst⟩, _,
      of_decide_eq_true hmem, rfl, le_refl _⟩
  have hphys : highRamConfig.kernelPhysBase = 0x40200000 := by decide +kernel
  have htree : u32 highRamConfig.dtb >>> mbShift = 0x400 := by decide +kernel
  refine ⟨_, hheap, (blkCall_transfers_iff (fun _ => 0) idleBlk (.fsRead 0 1 0xC010000C)
    (.inr hheap)).mpr ?_⟩
  unfold BootConfig.Straight BootConfig.OnTree
  rw [hphys, htree]
  exact ⟨fun i _ => .inr fun hon => by
    have := hon.2
    rw [Nat.shiftRight_eq_div_pow] at this
    simp only [BlkCall.buf, mbShift] at this
    omega, by decide +kernel⟩

/-- The device is told to write at the buffer's virtual address, where no page of the caller is. -/
theorem user_buffer_missed : ¬ ∀ (c : BootConfig) (f : FoundTables) (vm : Vm) (pgd : ℕ)
    (device : Blk → ℕ) (b : Blk) (r0 r1 r2 r3 : ℕ), c.UserBuffer f vm pgd r3 (r2 * 512) →
    ∀ i < r2 * 512, ∃ k < r2 * 512, c.translate f vm pgd (r3 + k) =
      some (((b.svcBlkRead c.kernelPhysBase device r0 r1 r2 r3).1.desc 1).addr + i) := by
  intro h
  have hbuf : highRamConfig.UserBuffer blankTables oneUserPage 0 0x400000 (1 * 512) := by
    unfold BootConfig.UserBuffer
    decide +kernel
  obtain ⟨k, hk, heq⟩ := h highRamConfig blankTables oneUserPage 0 (fun _ => 0) idleBlk 0 0 1
    0x400000 hbuf 0 (by decide)
  have hfar : ∀ k < 1 * 512, highRamConfig.translate blankTables oneUserPage 0 (0x400000 + k) ≠
      some (((idleBlk.svcBlkRead highRamConfig.kernelPhysBase (fun _ => 0) 0 0 1 0x400000).1.desc
        1).addr + 0) := by
    decide +kernel
  exact hfar k hk heq

end Leg

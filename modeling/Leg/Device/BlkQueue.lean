import Leg.Device.Blk

/-! The request queue of the block device. The driver of `blk.c` takes one access at a time and the
device acts between any two of them; together they are a disk whose requests happen one after the
other. -/
namespace Leg
open Runs

/-- The arguments of `do_request`. -/
structure BlkRequest where
  type : ℕ
  sector : ℕ
  count : ℕ
  buf : ℕ

/-- The number of bytes that the data descriptor asks for. -/
def BlkRequest.bytes (r : BlkRequest) : ℕ := u32 (r.count * 512)

/-- Where `do_request` stands: outside, before each of its accesses to memory, at the loop that
waits for the device, and behind it. -/
inductive BlkPc where
  | idle
  | header (r : BlkRequest)
  | sentinel (r : BlkRequest)
  | desc (r : BlkRequest) (i : ℕ)
  | ring (r : BlkRequest)
  | avail (r : BlkRequest)
  | notify (r : BlkRequest)
  | poll (r : BlkRequest)
  | bumpLast (r : BlkRequest)
  | finish (r : BlkRequest)

/-- What the device knows of the chain that it has taken, which data bytes it has moved, and whether
it has written the status. -/
structure BlkJob where
  hdr : BlkReqHdr
  data : VqDesc
  statusAddr : ℕ
  moved : List ℕ
  ended : Bool

/-- What happens to the memory and the disk, as a caller sees it: a store between the requests, or
a request for the sectors from `sector` on with `n` bytes at `addr`. -/
inductive DiskOp where
  | store (a : ℕ) (v : UInt8)
  | read (sector addr n : ℕ) (ok : Bool)
  | write (sector addr n : ℕ) (ok : Bool)

/-- The driver and the device. `queueVa` is the address of `g_queue_mem`, `mem` is the physical
memory apart from the statics of the driver, and `served` records the stores and the requests that
have returned. -/
structure BlkSystem where
  blk : Blk
  queueVa : ℕ
  pc : BlkPc
  usedIdx : ℕ
  queueNum : ℕ
  devIdx : ℕ
  job : Option BlkJob
  disk : ℕ → UInt8
  mem : ℕ → UInt8
  served : List DiskOp

/-- A call of the driver, one of its accesses, a store of the kernel between two calls, or a step of
the device. -/
inductive BlkOp where
  | call (r : BlkRequest)
  | driver
  | store (a : ℕ) (v : UInt8)
  | take
  | move (i : ℕ)
  | status (v : ℕ)
  | publish

/-- The device reads the request's header, where the descriptor says it is. -/
def Blk.headerAt (kernelPhysBase : ℕ) (b : Blk) (addr : ℕ) : Option BlkReqHdr :=
  if addr = virtToPhys kernelPhysBase b.hdrVa then some b.hdr else none

/-- The device walks the chain that starts at descriptor `head`. -/
def Blk.jobAt (kernelPhysBase : ℕ) (b : Blk) (head : ℕ) : Option BlkJob :=
  let d := b.desc head
  let data := b.desc d.next
  let last := b.desc data.next
  (b.headerAt kernelPhysBase d.addr).bind fun hdr =>
    if d.len = 16 ∧ d.flags = vdescFNext ∧ last.len = 1 ∧ last.flags = vdescFWrite ∧
        data.flags = (if hdr.type = virtioBlkTIn then vdescFWrite else 0) ||| vdescFNext then
      some ⟨hdr, data, last.addr, [], false⟩
    else none

namespace BlkSystem
variable (kernelPhysBase : ℕ) (s : BlkSystem)

/-- A byte of the statics of the driver. -/
def Static (x : ℕ) : Prop :=
  let inside (va n : ℕ) := virtToPhys kernelPhysBase va ≤ x ∧ x < virtToPhys kernelPhysBase va + n
  inside s.queueVa (2 * pageSize) ∨ inside s.blk.hdrVa 16 ∨ inside s.blk.statusVa 1

/-- What a returning request is to its caller. -/
def returned (r : BlkRequest) (ok : Bool) : DiskOp :=
  let addr := virtToPhys kernelPhysBase r.buf
  if r.type = virtioBlkTIn then .read r.sector addr r.bytes ok
  else .write r.sector addr r.bytes ok

/-- The next access of `do_request`. -/
def driver : BlkSystem :=
  match s.pc with
  | .idle => s
  | .header r => { s with blk := { s.blk with hdr := ⟨r.type, r.sector⟩ }, pc := .sentinel r }
  | .sentinel r => { s with blk := { s.blk with status := 0xFF }, pc := .desc r 0 }
  | .desc r i =>
    let d := s.blk.chain kernelPhysBase r.type r.count r.buf i
    { s with
      blk := { s.blk with desc := Function.update s.blk.desc i d }
      pc := if i < 2 then .desc r (i + 1) else .ring r }
  | .ring r =>
    let ring := Function.update s.blk.availRing (s.blk.availIdx % queueSize) 0
    { s with blk := { s.blk with availRing := ring }, pc := .avail r }
  | .avail r =>
    { s with blk := { s.blk with availIdx := u16 (s.blk.availIdx + 1) }, pc := .notify r }
  | .notify r => { s with pc := .poll r }
  | .poll r => if s.usedIdx = s.blk.lastUsedIdx then s else { s with pc := .bumpLast r }
  | .bumpLast r =>
    { s with blk := { s.blk with lastUsedIdx := u16 (s.blk.lastUsedIdx + 1) }, pc := .finish r }
  | .finish r =>
    let ok := decide (s.blk.status = virtioBlkSOk)
    { s with pc := .idle, served := s.served ++ [returned kernelPhysBase r ok] }

/-- The device takes the next chain from the available ring. -/
def take : BlkSystem :=
  { s with
    devIdx := u16 (s.devIdx + 1)
    job := s.blk.jobAt kernelPhysBase (s.blk.availRing (s.devIdx % s.queueNum)) }

/-- The device moves a byte of the data, to memory for `VIRTIO_BLK_T_IN` and else to the disk. -/
def move (i : ℕ) : BlkSystem :=
  match s.job with
  | none => s
  | some j =>
    let a := j.data.addr + i
    let k := j.hdr.sector * 512 + i
    let job := some { j with moved := i :: j.moved }
    if j.hdr.type = virtioBlkTIn then
      { s with job := job, mem := Function.update s.mem a (s.disk k) }
    else { s with job := job, disk := Function.update s.disk k (s.mem a) }

/-- The device writes the status byte, where the descriptor says it is. -/
def writeStatus (v : ℕ) : BlkSystem :=
  match s.job with
  | none => s
  | some j =>
    let status := if j.statusAddr = virtToPhys kernelPhysBase s.blk.statusVa then v
      else s.blk.status
    { s with blk := { s.blk with status := status }, job := some { j with ended := true } }

/-- The device gives the chain back. -/
def publish : BlkSystem := { s with usedIdx := u16 (s.usedIdx + 1), job := none }

def next : BlkOp → BlkSystem
  | .call r => { s with pc := .header r }
  | .driver => s.driver kernelPhysBase
  | .store a v =>
    { s with mem := Function.update s.mem a v, served := s.served ++ [.store a v] }
  | .take => s.take kernelPhysBase
  | .move i => s.move i
  | .status v => s.writeStatus kernelPhysBase v
  | .publish => s.publish

/-- The kernel calls the driver and uses memory between two calls only, with buffers outside of the
driver's own statics. A device that follows virtio
takes what is available and can be walked, moves data until it writes the status, reports success
for a request it has carried out, and gives back what it has ended. -/
def Admits : BlkOp → Prop
  | .call r => s.pc = .idle ∧ (r.type = virtioBlkTIn ∨ r.type = virtioBlkTOut) ∧
      ∀ i < r.bytes, ¬s.Static kernelPhysBase (virtToPhys kernelPhysBase r.buf + i)
  | .driver => s.pc ≠ .idle
  | .store a _ => s.pc = .idle ∧ ¬s.Static kernelPhysBase a
  | .take => s.devIdx ≠ s.blk.availIdx ∧ s.job = none ∧
      (s.blk.jobAt kernelPhysBase (s.blk.availRing (s.devIdx % s.queueNum))).isSome
  | .move i => ∃ j, s.job = some j ∧ j.ended = false ∧ i < j.data.len
  | .status v => ∃ j, s.job = some j ∧ j.ended = false ∧
      (v = virtioBlkSOk → ∀ i < j.data.len, i ∈ j.moved)
  | .publish => ∃ j, s.job = some j ∧ j.ended = true

end BlkSystem

def BlkStep (kernelPhysBase : ℕ) (s : BlkSystem) (op : BlkOp) (t : BlkSystem) : Prop :=
  s.Admits kernelPhysBase op ∧ t = s.next kernelPhysBase op

/-- The system behind `blk_init`, where the device offers `qmax` entries. -/
def blkStart (qmax queueVa : ℕ) (b : Blk) (disk mem : ℕ → UInt8) : BlkSystem where
  blk := { b with availIdx := 0, lastUsedIdx := 0 }
  queueVa := queueVa
  pc := .idle
  usedIdx := 0
  queueNum := if qmax < queueSize then qmax else queueSize
  devIdx := 0
  job := none
  disk := disk
  mem := mem
  served := []

/-- The disk and the memory as the callers of the driver see them. -/
structure DiskMem where
  disk : ℕ → UInt8
  mem : ℕ → UInt8

/-- Some of the bytes from `a` on, counted from there, in the place of those from `b` on. -/
def moveBytes (moved : List ℕ) (src dst : ℕ → UInt8) (a b : ℕ) : ℕ → UInt8 := fun x =>
  if b ≤ x ∧ x - b ∈ moved then src (a + (x - b)) else dst x

namespace DiskMem
variable (u : DiskMem)

def fetch (sector addr : ℕ) (moved : List ℕ) : DiskMem :=
  { u with mem := moveBytes moved u.disk u.mem (sector * 512) addr }

def put (sector addr : ℕ) (moved : List ℕ) : DiskMem :=
  { u with disk := moveBytes moved u.mem u.disk addr (sector * 512) }

end DiskMem

/-- A set of the bytes of a request, all of them where it succeeds. -/
def BlkMoved (n : ℕ) (ok : Bool) (moved : List ℕ) : Prop :=
  (∀ i ∈ moved, i < n) ∧ (ok = true → ∀ i < n, i ∈ moved)

/-- A disk: a request moves all its bytes, or fails and may have moved some of them. -/
def DiskStep (u : DiskMem) (op : DiskOp) (v : DiskMem) : Prop :=
  match op with
  | .store a b => v = { u with mem := Function.update u.mem a b }
  | .read sector addr n ok => ∃ moved, BlkMoved n ok moved ∧ v = u.fetch sector addr moved
  | .write sector addr n ok => ∃ moved, BlkMoved n ok moved ∧ v = u.put sector addr moved

theorem moveBytes_nil (src dst : ℕ → UInt8) (a b : ℕ) : moveBytes [] src dst a b = dst := by
  funext x
  unfold moveBytes
  simp

theorem moveBytes_cons (i : ℕ) (moved : List ℕ) (src dst : ℕ → UInt8) (a b : ℕ) :
    moveBytes (i :: moved) src dst a b =
      Function.update (moveBytes moved src dst a b) (b + i) (src (a + i)) := by
  funext x
  unfold moveBytes
  by_cases hx : x = b + i
  · subst hx
    simp
  · rw [Function.update_of_ne hx]
    have hne : b ≤ x ∧ x - b ∈ i :: moved ↔ b ≤ x ∧ x - b ∈ moved := by
      refine and_congr_right fun hb => ?_
      rw [List.mem_cons, or_iff_right (by omega)]
    simp only [hne]

section Invariant
variable (kpb : ℕ) (s : BlkSystem) (u : DiskMem) (r : BlkRequest)

/-- What a request has done to the disk and the memory when these bytes are moved. -/
def BlkRequest.after (moved : List ℕ) : DiskMem :=
  if r.type = virtioBlkTIn then u.fetch r.sector (virtToPhys kpb r.buf) moved
  else u.put r.sector (virtToPhys kpb r.buf) moved

/-- The device has nothing to do. -/
structure BlkQuiet : Prop where
  job : s.job = none
  dev : s.devIdx = s.blk.availIdx
  used : s.usedIdx = s.blk.lastUsedIdx
  shown : (⟨s.disk, s.mem⟩ : DiskMem) = u

/-- The header is written. -/
structure BlkHeaded : Prop where
  valid : r.type = virtioBlkTIn ∨ r.type = virtioBlkTOut
  hdr : s.blk.hdr = ⟨r.type, r.sector⟩

/-- So are the first `n` descriptors. -/
structure BlkChained : Prop extends BlkHeaded s r where
  desc : ∀ i < 3, s.blk.desc i = s.blk.chain kpb r.type r.count r.buf i

/-- The device has not taken the chain. -/
structure BlkAvailable : Prop where
  job : s.job = none
  avail : s.blk.availIdx = u16 (s.devIdx + 1)
  head : s.blk.availRing (s.devIdx % queueSize) = 0
  used : s.usedIdx = s.blk.lastUsedIdx
  shown : (⟨s.disk, s.mem⟩ : DiskMem) = u

/-- The device carries the request out. -/
structure BlkWorking (j : BlkJob) : Prop where
  job : s.job = some j
  dev : s.devIdx = s.blk.availIdx
  used : s.usedIdx = s.blk.lastUsedIdx
  hdr : j.hdr = ⟨r.type, r.sector⟩
  addr : j.data.addr = virtToPhys kpb r.buf
  len : j.data.len = r.bytes
  statusAddr : j.statusAddr = virtToPhys kpb s.blk.statusVa
  moved : BlkMoved r.bytes (j.ended && decide (s.blk.status = virtioBlkSOk)) j.moved
  shown : (⟨s.disk, s.mem⟩ : DiskMem) = r.after kpb u j.moved

/-- The device has given the chain back; `n` used entries wait for the driver. -/
structure BlkServed (n : ℕ) : Prop where
  job : s.job = none
  dev : s.devIdx = s.blk.availIdx
  used : s.usedIdx = u16 (s.blk.lastUsedIdx + n)
  moved : ∃ moved, BlkMoved r.bytes (decide (s.blk.status = virtioBlkSOk)) moved ∧
    (⟨s.disk, s.mem⟩ : DiskMem) = r.after kpb u moved

/-- A request that the device knows of. -/
def BlkPosted : Prop :=
  BlkChained kpb s r ∧ (BlkAvailable s u ∨ (∃ j, BlkWorking kpb s u r j) ∨ BlkServed kpb s u r 1)

/-- What holds before each access of the driver. -/
def BlkPhase : BlkPc → Prop
  | .idle => BlkQuiet s u
  | .header r => BlkQuiet s u ∧ (r.type = virtioBlkTIn ∨ r.type = virtioBlkTOut)
  | .sentinel r => BlkQuiet s u ∧ BlkHeaded s r
  | .desc r i => BlkQuiet s u ∧ BlkHeaded s r ∧ i < 3 ∧
      ∀ k < i, s.blk.desc k = s.blk.chain kpb r.type r.count r.buf k
  | .ring r => BlkQuiet s u ∧ BlkChained kpb s r
  | .avail r => BlkQuiet s u ∧ BlkChained kpb s r ∧ s.blk.availRing (s.blk.availIdx % queueSize) = 0
  | .notify r | .poll r => BlkPosted kpb s u r
  | .bumpLast r => BlkServed kpb s u r 1
  | .finish r => BlkServed kpb s u r 0

/-- The invariant: `u` is what the callers know of. -/
structure BlkOk : Prop where
  queueNum : s.queueNum = queueSize
  avail_lt : s.blk.availIdx < 65536
  last_lt : s.blk.lastUsedIdx < 65536
  phase : BlkPhase kpb s u s.pc

end Invariant

section Steps
variable {kpb : ℕ} {s t : BlkSystem} {u : DiskMem} {r : BlkRequest}

theorem BlkRequest.after_nil : r.after kpb u [] = u := by
  unfold BlkRequest.after DiskMem.fetch DiskMem.put
  rw [moveBytes_nil, moveBytes_nil]
  exact ite_self _

@[simp] theorem blkChain_zero (b : Blk) (type count buf : ℕ) : b.chain kpb type count buf 0 =
    ⟨virtToPhys kpb b.hdrVa, 16, vdescFNext, 1⟩ := rfl

@[simp] theorem blkChain_one (b : Blk) (type count buf : ℕ) : b.chain kpb type count buf 1 =
    ⟨virtToPhys kpb buf, u32 (count * 512),
      (if type = virtioBlkTIn then vdescFWrite else 0) ||| vdescFNext, 2⟩ := rfl

@[simp] theorem blkChain_two (b : Blk) (type count buf : ℕ) : b.chain kpb type count buf 2 =
    ⟨virtToPhys kpb b.statusVa, 1, vdescFWrite, 0⟩ := rfl

theorem BlkChained.job (h : BlkChained kpb s r) : s.blk.jobAt kpb 0 =
    some ⟨⟨r.type, r.sector⟩, s.blk.chain kpb r.type r.count r.buf 1,
      virtToPhys kpb s.blk.statusVa, [], false⟩ := by
  have h0 := h.desc 0 (by decide)
  have h1 := h.desc 1 (by decide)
  have h2 := h.desc 2 (by decide)
  simp only [blkChain_zero, blkChain_one, blkChain_two] at h0 h1 h2
  unfold Blk.jobAt Blk.headerAt
  simp only [h0, h1, h2, h.hdr, if_true, Option.bind_some, and_self, blkChain_one]

theorem blkChain_desc (b : Blk) (desc : ℕ → VqDesc) (type count buf : ℕ) {k : ℕ} (hk : k < 3) :
    { b with desc := desc }.chain kpb type count buf k = b.chain kpb type count buf k := by
  obtain rfl | rfl | rfl : k = 0 ∨ k = 1 ∨ k = 2 := by omega
  all_goals rfl

theorem BlkMoved.nil (n : ℕ) : BlkMoved n false [] :=
  ⟨fun _ hi => absurd hi List.not_mem_nil, fun h => absurd h Bool.false_ne_true⟩

theorem BlkAvailable.take (h : BlkAvailable s u) (hc : BlkChained kpb s r)
    (hnum : s.queueNum = queueSize) :
    ∃ j, BlkWorking kpb (s.take kpb) u r j ∧ j.ended = false := by
  refine ⟨⟨⟨r.type, r.sector⟩, s.blk.chain kpb r.type r.count r.buf 1,
    virtToPhys kpb s.blk.statusVa, [], false⟩, ⟨?_, h.avail.symm, h.used, rfl, rfl, rfl, rfl,
    .nil _, ?_⟩, rfl⟩
  · change s.blk.jobAt kpb (s.blk.availRing (s.devIdx % s.queueNum)) = _
    rw [hnum, h.head, hc.job]
  · rw [BlkRequest.after_nil]
    exact h.shown

section Job
variable {j : BlkJob} (h : BlkWorking kpb s u r j)
include h

/-- One byte more is moved. -/
theorem BlkWorking.move (hended : j.ended = false) {i : ℕ} (hi : i < j.data.len) :
    BlkWorking kpb (s.move i) u r { j with moved := i :: j.moved } := by
  have hmoved : BlkMoved r.bytes (j.ended && decide (s.blk.status = virtioBlkSOk))
      (i :: j.moved) := by
    rw [hended, Bool.false_and]
    refine ⟨fun k hk => ?_, fun h => absurd h Bool.false_ne_true⟩
    rcases List.mem_cons.mp hk with rfl | hk
    · exact h.len ▸ hi
    · exact h.moved.1 k hk
  have htype : j.hdr.type = r.type := by rw [h.hdr]
  have hsector : j.hdr.sector = r.sector := by rw [h.hdr]
  have hshown := h.shown
  unfold BlkRequest.after DiskMem.fetch DiskMem.put at hshown
  unfold BlkSystem.move
  rw [h.job]
  dsimp only
  rw [htype, hsector, h.addr]
  by_cases hin : r.type = virtioBlkTIn
  · rw [if_pos hin] at hshown ⊢
    obtain ⟨hdisk, hmem⟩ := DiskMem.mk.inj hshown
    refine ⟨rfl, h.dev, h.used, h.hdr, h.addr, h.len, h.statusAddr, hmoved, ?_⟩
    unfold BlkRequest.after DiskMem.fetch
    rw [if_pos hin, moveBytes_cons]
    dsimp only
    rw [hmem, hdisk]
  · rw [if_neg hin] at hshown ⊢
    obtain ⟨hdisk, hmem⟩ := DiskMem.mk.inj hshown
    refine ⟨rfl, h.dev, h.used, h.hdr, h.addr, h.len, h.statusAddr, hmoved, ?_⟩
    unfold BlkRequest.after DiskMem.put
    rw [if_neg hin, moveBytes_cons]
    dsimp only
    rw [hdisk, hmem]

theorem BlkWorking.status {v : ℕ} (hall : v = virtioBlkSOk → ∀ i < j.data.len, i ∈ j.moved) :
    BlkWorking kpb (s.writeStatus kpb v) u r { j with ended := true } := by
  unfold BlkSystem.writeStatus
  rw [h.job]
  dsimp only
  rw [if_pos h.statusAddr]
  refine ⟨rfl, h.dev, h.used, h.hdr, h.addr, h.len, h.statusAddr, ⟨h.moved.1, ?_⟩, h.shown⟩
  intro hok i hi
  rw [Bool.true_and] at hok
  exact hall (of_decide_eq_true hok) i (h.len.symm ▸ hi)

theorem BlkWorking.publish (hended : j.ended = true) : BlkServed kpb s.publish u r 1 := by
  refine ⟨rfl, h.dev, congrArg (fun n => u16 (n + 1)) h.used, j.moved, ?_, h.shown⟩
  have hmoved := h.moved
  rwa [hended, Bool.true_and] at hmoved

end Job

/-- The steps that are the device's. -/
def BlkOp.ofDevice : BlkOp → Bool
  | .take | .move _ | .status _ | .publish => true
  | _ => false

theorem BlkChained.of_eq (h : BlkChained kpb s r) (hblk : t.blk = s.blk) : BlkChained kpb t r :=
  ⟨⟨h.valid, by rw [hblk]; exact h.hdr⟩, fun i hi => by rw [hblk]; exact h.desc i hi⟩

theorem BlkPosted.goOn (h : BlkPosted kpb s u r) (pc : BlkPc) :
    BlkPosted kpb { s with pc := pc } u r := by
  obtain ⟨hchained, hwait | ⟨j, hwork⟩ | hdone⟩ := h
  · exact ⟨hchained.of_eq rfl, .inl ⟨hwait.job, hwait.avail, hwait.head, hwait.used, hwait.shown⟩⟩
  · exact ⟨hchained.of_eq rfl, .inr (.inl ⟨j, hwork.job, hwork.dev, hwork.used, hwork.hdr,
      hwork.addr, hwork.len, hwork.statusAddr, hwork.moved, hwork.shown⟩)⟩
  · exact ⟨hchained.of_eq rfl, .inr (.inr ⟨hdone.job, hdone.dev, hdone.used, hdone.moved⟩)⟩

/-- A step of the device while it knows of a request. -/
theorem BlkPosted.device (h : BlkPosted kpb s u r) (hnum : s.queueNum = queueSize) {op : BlkOp}
    (hop : op.ofDevice = true) (ha : s.Admits kpb op) : BlkPosted kpb (s.next kpb op) u r := by
  obtain ⟨hchained, hphase⟩ := h
  have hwork {j : BlkJob} (hj : s.job = some j) : BlkWorking kpb s u r j := by
    rcases hphase with hwait | ⟨j', hwork⟩ | hdone
    · exact absurd (hwait.job.symm.trans hj) (by simp)
    · obtain rfl := Option.some.inj (hwork.job.symm.trans hj)
      exact hwork
    · exact absurd (hdone.job.symm.trans hj) (by simp)
  cases op with
  | call r => cases hop
  | driver => cases hop
  | store a v => cases hop
  | take =>
    obtain ⟨hne, -, -⟩ := ha
    rcases hphase with hwait | ⟨j, hwork⟩ | hdone
    · obtain ⟨j, hwork, -⟩ := hwait.take hchained hnum
      exact ⟨hchained.of_eq rfl, .inr (.inl ⟨j, hwork⟩)⟩
    · exact absurd hwork.dev hne
    · exact absurd hdone.dev hne
  | move i =>
    obtain ⟨j, hj, hended, hi⟩ := ha
    have hstep := (hwork hj).move hended hi
    refine ⟨hchained.of_eq ?_, .inr (.inl ⟨_, hstep⟩)⟩
    change (s.move i).blk = s.blk
    unfold BlkSystem.move
    rw [hj]
    dsimp only
    split <;> rfl
  | status v =>
    obtain ⟨j, hj, -, hall⟩ := ha
    have hstep := (hwork hj).status hall
    refine ⟨?_, .inr (.inl ⟨_, hstep⟩)⟩
    change BlkChained kpb (s.writeStatus kpb v) r
    unfold BlkSystem.writeStatus
    rw [hj]
    exact ⟨⟨hchained.valid, hchained.hdr⟩, hchained.desc⟩
  | publish =>
    obtain ⟨j, hj, hended⟩ := ha
    exact ⟨hchained.of_eq rfl, .inr (.inr ((hwork hj).publish hended))⟩

theorem no_blkDevice (hjob : s.job = none) (hdev : s.devIdx = s.blk.availIdx) {op : BlkOp}
    (hop : op.ofDevice = true) : ¬s.Admits kpb op := by
  intro ha
  cases op with
  | call r => cases hop
  | driver => cases hop
  | store a v => cases hop
  | take => exact ha.1 hdev
  | move i | status v | publish =>
    obtain ⟨j, hj, -⟩ := ha
    exact absurd (hjob.symm.trans hj) (by simp)

/-- What the device leaves alone. -/
structure BlkKept (s t : BlkSystem) : Prop where
  pc : t.pc = s.pc
  queueNum : t.queueNum = s.queueNum
  avail : t.blk.availIdx = s.blk.availIdx
  last : t.blk.lastUsedIdx = s.blk.lastUsedIdx
  served : t.served = s.served

theorem blkKept_device {op : BlkOp} (hop : op.ofDevice = true) :
    BlkKept s (s.next kpb op) := by
  cases op with
  | call r => cases hop
  | driver => cases hop
  | store a v => cases hop
  | take => exact ⟨rfl, rfl, rfl, rfl, rfl⟩
  | publish => exact ⟨rfl, rfl, rfl, rfl, rfl⟩
  | move i =>
    change BlkKept s (s.move i)
    unfold BlkSystem.move
    split
    next => exact ⟨rfl, rfl, rfl, rfl, rfl⟩
    next =>
      dsimp only
      split <;> exact ⟨rfl, rfl, rfl, rfl, rfl⟩
  | status v =>
    change BlkKept s (s.writeStatus kpb v)
    unfold BlkSystem.writeStatus
    split <;> exact ⟨rfl, rfl, rfl, rfl, rfl⟩

/-- A step of the device keeps the invariant. -/
theorem BlkOk.device (h : BlkOk kpb s u) {op : BlkOp} (hop : op.ofDevice = true)
    (ha : s.Admits kpb op) : BlkOk kpb (s.next kpb op) u := by
  have hkept := @blkKept_device kpb s op hop
  refine ⟨hkept.queueNum.trans h.queueNum, hkept.avail ▸ h.avail_lt, hkept.last ▸ h.last_lt, ?_⟩
  rw [hkept.pc]
  have hphase := h.phase
  have hquiet (hq : BlkQuiet s u) : False := no_blkDevice hq.job hq.dev hop ha
  cases hpc : s.pc with
  | idle =>
    rw [hpc] at hphase
    exact (hquiet hphase).elim
  | header r | sentinel r | desc r i | ring r | avail r =>
    rw [hpc] at hphase
    exact (hquiet hphase.1).elim
  | notify r | poll r =>
    rw [hpc] at hphase
    exact BlkPosted.device hphase h.queueNum hop ha
  | bumpLast r | finish r =>
    rw [hpc] at hphase
    have hserved : BlkServed kpb s u r _ := hphase
    exact (no_blkDevice hserved.job hserved.dev hop ha).elim

theorem BlkServed.step (h : BlkServed kpb s u r 0) : DiskStep u
    (BlkSystem.returned kpb r (decide (s.blk.status = virtioBlkSOk))) ⟨s.disk, s.mem⟩ := by
  obtain ⟨moved, hmoved, hshown⟩ := h.moved
  unfold BlkSystem.returned
  rw [hshown]
  unfold BlkRequest.after
  dsimp only
  split <;> exact ⟨moved, hmoved, rfl⟩

/-- An access of the driver keeps the invariant; where the driver returns, the request has
happened. -/
theorem BlkOk.driver (h : BlkOk kpb s u) (hpc : s.pc ≠ .idle) : ∃ more v,
    (s.driver kpb).served = s.served ++ more ∧ Run DiskStep u more v ∧
      BlkOk kpb (s.driver kpb) v := by
  obtain ⟨hnum, havail, hlast, hphase⟩ := h
  unfold BlkSystem.driver
  cases hcase : s.pc with
  | idle => exact absurd hcase hpc
  | header r =>
    rw [hcase] at hphase
    obtain ⟨hq, hvalid⟩ := hphase
    exact ⟨[], u, (List.append_nil _).symm, .nil u, hnum, havail, hlast,
      ⟨hq.job, hq.dev, hq.used, hq.shown⟩, hvalid, rfl⟩
  | sentinel r =>
    rw [hcase] at hphase
    obtain ⟨hq, hheaded⟩ := hphase
    exact ⟨[], u, (List.append_nil _).symm, .nil u, hnum, havail, hlast,
      ⟨hq.job, hq.dev, hq.used, hq.shown⟩, ⟨hheaded.valid, hheaded.hdr⟩, by decide,
      fun k hk => absurd hk (Nat.not_lt_zero k)⟩
  | desc r i =>
    rw [hcase] at hphase
    obtain ⟨hq, hheaded, hi, hdesc⟩ := hphase
    have hupto : ∀ k < i + 1, Function.update s.blk.desc i
        (s.blk.chain kpb r.type r.count r.buf i) k = s.blk.chain kpb r.type r.count r.buf k := by
      intro k hk
      rcases Nat.lt_succ_iff_lt_or_eq.mp hk with hlt | rfl
      · rw [Function.update_of_ne (Nat.ne_of_lt hlt)]
        exact hdesc k hlt
      · rw [Function.update_self]
    refine ⟨[], u, (List.append_nil _).symm, .nil u, hnum, havail, hlast, ?_⟩
    dsimp only
    split
    next hmore =>
      refine ⟨⟨hq.job, hq.dev, hq.used, hq.shown⟩, ⟨hheaded.valid, hheaded.hdr⟩, by omega, ?_⟩
      intro k hk
      exact (hupto k hk).trans (blkChain_desc s.blk _ _ _ _ (by omega)).symm
    next hmore =>
      refine ⟨⟨hq.job, hq.dev, hq.used, hq.shown⟩, ⟨hheaded.valid, hheaded.hdr⟩, ?_⟩
      intro k hk
      exact (hupto k (by omega)).trans (blkChain_desc s.blk _ _ _ _ hk).symm
  | ring r =>
    rw [hcase] at hphase
    obtain ⟨hq, hchained⟩ := hphase
    refine ⟨[], u, (List.append_nil _).symm, .nil u, hnum, havail, hlast,
      ⟨hq.job, hq.dev, hq.used, hq.shown⟩, ⟨⟨hchained.valid, hchained.hdr⟩, hchained.desc⟩, ?_⟩
    exact Function.update_self ..
  | avail r =>
    rw [hcase] at hphase
    obtain ⟨hq, hchained, hhead⟩ := hphase
    refine ⟨[], u, (List.append_nil _).symm, .nil u, hnum, Nat.mod_lt _ (by decide), hlast,
      ⟨⟨hchained.valid, hchained.hdr⟩, hchained.desc⟩,
      .inl ⟨hq.job, ?_, ?_, hq.used, hq.shown⟩⟩
    · exact congrArg (fun n => u16 (n + 1)) hq.dev.symm
    · exact hq.dev.symm ▸ hhead
  | notify r =>
    rw [hcase] at hphase
    exact ⟨[], u, (List.append_nil _).symm, .nil u, hnum, havail, hlast,
      BlkPosted.goOn hphase _⟩
  | poll r =>
    rw [hcase] at hphase
    refine ⟨[], u, ?_, .nil u, ?_⟩
    · dsimp only
      split <;> exact (List.append_nil _).symm
    dsimp only
    split
    next => exact ⟨hnum, havail, hlast, by rw [hcase]; exact hphase⟩
    next hused =>
      obtain ⟨-, hwait | ⟨j, hwork⟩ | hdone⟩ := hphase
      · exact absurd hwait.used hused
      · exact absurd hwork.used hused
      · exact ⟨hnum, havail, hlast, hdone.job, hdone.dev, hdone.used, hdone.moved⟩
  | bumpLast r =>
    rw [hcase] at hphase
    have hdone : BlkServed kpb s u r 1 := hphase
    refine ⟨[], u, (List.append_nil _).symm, .nil u, hnum, havail, Nat.mod_lt _ (by decide),
      hdone.job, hdone.dev, ?_, hdone.moved⟩
    exact hdone.used.trans (Nat.mod_mod _ _).symm
  | finish r =>
    rw [hcase] at hphase
    have hdone : BlkServed kpb s u r 0 := hphase
    refine ⟨[_], _, rfl, .single hdone.step, hnum, havail, hlast, hdone.job, hdone.dev, ?_, rfl⟩
    exact hdone.used.trans (u16_of_lt hlast)

/-- One step of the system: what has been served has happened to the disk and the memory. -/
theorem blkStep_ok (h : BlkOk kpb s u) {op : BlkOp} (hs : BlkStep kpb s op t) : ∃ more v,
    t.served = s.served ++ more ∧ Run DiskStep u more v ∧ BlkOk kpb t v := by
  obtain ⟨ha, rfl⟩ := hs
  have hdevice (hop : op.ofDevice = true) : ∃ more v,
      (s.next kpb op).served = s.served ++ more ∧ Run DiskStep u more v ∧
        BlkOk kpb (s.next kpb op) v := by
    refine ⟨[], u, ?_, .nil u, h.device hop ha⟩
    rw [List.append_nil]
    exact (blkKept_device hop).served
  cases op with
  | driver => exact h.driver ha
  | call r =>
    have hphase := h.phase
    rw [ha.1] at hphase
    have hq : BlkQuiet s u := hphase
    exact ⟨[], u, (List.append_nil _).symm, .nil u, h.queueNum, h.avail_lt, h.last_lt,
      ⟨hq.job, hq.dev, hq.used, hq.shown⟩, ha.2.1⟩
  | store a v =>
    have hphase := h.phase
    rw [ha.1] at hphase
    have hq : BlkQuiet s u := hphase
    obtain ⟨hdisk, hmem⟩ := DiskMem.mk.inj hq.shown
    refine ⟨[.store a v], { u with mem := Function.update u.mem a v }, rfl, .single rfl,
      h.queueNum, h.avail_lt, h.last_lt, ?_⟩
    change BlkPhase kpb _ _ s.pc
    rw [ha.1]
    refine ⟨hq.job, hq.dev, hq.used, ?_⟩
    change DiskMem.mk s.disk (Function.update s.mem a v) = _
    rw [hdisk, hmem]
  | take | move i | status v | publish => exact hdevice rfl

theorem blkRun_ok {ops : List BlkOp} (hr : Run (BlkStep kpb) s ops t) (h : BlkOk kpb s u) :
    ∃ more v, t.served = s.served ++ more ∧ Run DiskStep u more v ∧ BlkOk kpb t v := by
  refine hr.preserves (I := fun t => ∃ more v, t.served = s.served ++ more ∧
    Run DiskStep u more v ∧ BlkOk kpb t v) ?_ ⟨[], u, (List.append_nil _).symm, .nil u, h⟩
  rintro s' op t' ⟨before, v, hbefore, hv, hok⟩ hs
  obtain ⟨more, w, hserved, hmore, hok'⟩ := blkStep_ok hok hs
  exact ⟨before ++ more, w, by rw [hserved, hbefore, List.append_assoc], hv.append hmore, hok'⟩

theorem blkDriver_submit (s : BlkSystem) (r : BlkRequest) :
    (BlkSystem.driver kpb)^[7] (s.next kpb (.call r)) =
      { s with blk := s.blk.submit kpb r.type r.sector r.count r.buf, pc := .notify r } := by
  have hdesc : Function.update (Function.update (Function.update s.blk.desc 0
      (s.blk.chain kpb r.type r.count r.buf 0)) 1 (s.blk.chain kpb r.type r.count r.buf 1)) 2
        (s.blk.chain kpb r.type r.count r.buf 2) = s.blk.chain kpb r.type r.count r.buf := by
    funext k
    rcases k with _ | _ | _ | k
    all_goals rfl
  unfold Blk.submit
  rw [← hdesc]
  rfl

theorem BlkAvailable.admits (h : BlkAvailable s u) (hc : BlkChained kpb s r)
    (hnum : s.queueNum = queueSize) : s.Admits kpb .take := by
  refine ⟨?_, h.job, ?_⟩
  · rw [h.avail]
    unfold u16
    omega
  · rw [hnum, h.head, hc.job]
    rfl

theorem BlkServed.ahead (h : BlkServed kpb s u r 1) : s.usedIdx ≠ s.blk.lastUsedIdx := by
  rw [h.used]
  unfold u16
  omega

theorem BlkPosted.progress (h : BlkPosted kpb s u r) (hnum : s.queueNum = queueSize)
    (hused : s.usedIdx = s.blk.lastUsedIdx) :
    ∃ op : BlkOp, op.ofDevice = true ∧ s.Admits kpb op := by
  obtain ⟨hchained, hwait | ⟨j, hwork⟩ | hdone⟩ := h
  · exact ⟨.take, rfl, hwait.admits hchained hnum⟩
  · cases hended : j.ended with
    | true => exact ⟨.publish, rfl, j, hwork.job, hended⟩
    | false => exact ⟨.status 1, rfl, j, hwork.job, hended, fun h => absurd h (by decide)⟩
  · exact absurd hused hdone.ahead

theorem BlkOk.start {qmax : ℕ} (hq : queueSize ≤ qmax) (queueVa : ℕ) (b : Blk)
    (disk mem : ℕ → UInt8) : BlkOk kpb (blkStart qmax queueVa b disk mem) ⟨disk, mem⟩ :=
  ⟨if_neg (Nat.not_lt.mpr hq), Nat.zero_lt_succ _, Nat.zero_lt_succ _, rfl, rfl, rfl, rfl⟩

end Steps

/-- The request that the device may be working on. -/
def BlkPc.posted : BlkPc → Option BlkRequest
  | .notify r | .poll r | .bumpLast r | .finish r => some r
  | _ => none

section Runs
variable {kpb : ℕ} {s : BlkSystem} {u : DiskMem}

theorem BlkOk.quiet (h : BlkOk kpb s u) (hpc : s.pc.posted = none) : BlkQuiet s u := by
  have hphase := h.phase
  cases hcase : s.pc with
  | idle =>
    rw [hcase] at hphase
    exact hphase
  | header r | sentinel r | desc r i | ring r | avail r =>
    rw [hcase] at hphase
    exact hphase.1
  | notify r | poll r | bumpLast r | finish r =>
    rw [hcase] at hpc
    cases hpc

/-- While one is posted, some of its bytes are moved. -/
theorem BlkOk.moving (h : BlkOk kpb s u) {r : BlkRequest} (hpc : s.pc.posted = some r) :
    ∃ moved, (∀ i ∈ moved, i < r.bytes) ∧ (⟨s.disk, s.mem⟩ : DiskMem) = r.after kpb u moved := by
  have hposted (hp : BlkPosted kpb s u r) : ∃ moved, (∀ i ∈ moved, i < r.bytes) ∧
      (⟨s.disk, s.mem⟩ : DiskMem) = r.after kpb u moved := by
    obtain ⟨-, hwait | ⟨j, hwork⟩ | hdone⟩ := hp
    · exact ⟨[], (BlkMoved.nil _).1, hwait.shown.trans BlkRequest.after_nil.symm⟩
    · exact ⟨j.moved, hwork.moved.1, hwork.shown⟩
    · obtain ⟨moved, hmoved, hshown⟩ := hdone.moved
      exact ⟨moved, hmoved.1, hshown⟩
  have hserved {n : ℕ} (hd : BlkServed kpb s u r n) : ∃ moved, (∀ i ∈ moved, i < r.bytes) ∧
      (⟨s.disk, s.mem⟩ : DiskMem) = r.after kpb u moved := by
    obtain ⟨moved, hmoved, hshown⟩ := hd.moved
    exact ⟨moved, hmoved.1, hshown⟩
  have hphase := h.phase
  cases hcase : s.pc with
  | notify r' | poll r' =>
    rw [hcase] at hphase hpc
    obtain rfl := Option.some.inj hpc
    exact hposted hphase
  | bumpLast r' | finish r' =>
    rw [hcase] at hphase hpc
    obtain rfl := Option.some.inj hpc
    exact hserved hphase
  | idle | header r' | sentinel r' | desc r' i | ring r' | avail r' =>
    rw [hcase] at hpc
    cases hpc

end Runs

end Leg

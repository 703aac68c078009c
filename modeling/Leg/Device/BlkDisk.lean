import Leg.Device.BlkQueue

/-! What the driver of the block device gives its callers: a disk. Every request can be carried out,
they happen one after the other, and what was written is read back. -/
namespace Leg
open Runs

section Completion
variable {kpb : ℕ} {s : BlkSystem} {u : DiskMem} {r : BlkRequest}

theorem blkRun_driver (n : ℕ) (h : ∀ k < n, ((BlkSystem.driver kpb)^[k] s).pc ≠ .idle) :
    Run (BlkStep kpb) s (List.replicate n .driver) ((BlkSystem.driver kpb)^[n] s) := by
  induction n generalizing s with
  | zero => exact .nil s
  | succ n ih =>
    exact .cons ⟨h 0 (Nat.zero_lt_succ n), rfl⟩ (ih fun k hk => h (k + 1) (Nat.succ_lt_succ hk))

/-- What a state of the device's work keeps while it goes on. -/
structure BlkAtWork (kpb : ℕ) (s : BlkSystem) (u : DiskMem) (r : BlkRequest) (served : List DiskOp)
    (j : BlkJob) : Prop extends BlkWorking kpb s u r j where
  pc : s.pc = .poll r
  ended : j.ended = false
  served : s.served = served

theorem BlkAtWork.moveAll {served : List DiskOp} {j : BlkJob}
    (h : BlkAtWork kpb s u r served j) (n : ℕ) (hn : n ≤ r.bytes) : ∃ ops t j',
      Run (BlkStep kpb) s ops t ∧ BlkAtWork kpb t u r served j' ∧
      ∀ i < n, i ∈ j'.moved := by
  induction n with
  | zero => exact ⟨[], s, j, .nil s, h, fun i hi => absurd hi (Nat.not_lt_zero i)⟩
  | succ n ih =>
    obtain ⟨ops, t, j', hr, ht, hmoved⟩ := ih (Nat.le_of_succ_le hn)
    have hlt : n < j'.data.len := ht.len ▸ hn
    have hkept := @blkKept_device kpb t (.move n) rfl
    have hadmits : t.Admits kpb (.move n) := ⟨j', ht.job, ht.ended, hlt⟩
    refine ⟨ops ++ [.move n], t.move n, { j' with moved := n :: j'.moved },
      hr.append (.single ⟨hadmits, rfl⟩), ⟨ht.toBlkWorking.move ht.ended hlt, hkept.pc.trans ht.pc,
        ht.ended, hkept.served.trans ht.served⟩, fun i hi => ?_⟩
    rcases Nat.lt_succ_iff_lt_or_eq.mp hi with hlt | rfl
    · exact List.mem_cons_of_mem _ (hmoved i hlt)
    · exact List.mem_cons_self ..

/-- The driver makes a request available and waits for it. -/
theorem BlkOk.post (h : BlkOk kpb s u) (ha : s.Admits kpb (.call r)) : ∃ ops t,
    Run (BlkStep kpb) s ops t ∧ t.pc = .poll r ∧ t.served = s.served ∧ BlkOk kpb t u ∧
      BlkChained kpb t r ∧ BlkAvailable t u := by
  have hphase := h.phase
  rw [ha.1] at hphase
  have hq : BlkQuiet s u := hphase
  have hpc : ∀ k < 7, ((BlkSystem.driver kpb)^[k] (s.next kpb (.call r))).pc ≠ .idle := by
    intro k hk
    obtain rfl | rfl | rfl | rfl | rfl | rfl | rfl : k = 0 ∨ k = 1 ∨ k = 2 ∨ k = 3 ∨ k = 4 ∨
        k = 5 ∨ k = 6 := by omega
    all_goals exact BlkPc.noConfusion
  have hsubmit := blkRun_driver 7 hpc
  rw [blkDriver_submit] at hsubmit
  have hnotify : Run (BlkStep kpb)
      { s with blk := s.blk.submit kpb r.type r.sector r.count r.buf, pc := .notify r } [.driver]
      { s with blk := s.blk.submit kpb r.type r.sector r.count r.buf, pc := .poll r } :=
    .single ⟨BlkPc.noConfusion, rfl⟩
  have hcall : Run (BlkStep kpb) s [.call r] (s.next kpb (.call r)) := .single ⟨ha, rfl⟩
  have hrun := hcall.append (hsubmit.append hnotify)
  obtain ⟨more, v, hserved, hv, hok⟩ := blkRun_ok hrun h
  obtain rfl : more = [] := List.self_eq_append_right.mp hserved
  cases hv
  refine ⟨_, _, hrun, rfl, rfl, hok, ?_⟩
  obtain ⟨hchained, hwait | ⟨j, hwork⟩ | hdone⟩ : BlkPosted kpb _ u r := hok.phase
  · exact ⟨hchained, hwait⟩
  · exact absurd (hq.job.symm.trans hwork.job) (by simp)
  · exact absurd hq.used hdone.ahead

/-- Every request can be carried out. -/
theorem BlkOk.complete (h : BlkOk kpb s u) (ha : s.Admits kpb (.call r)) :
    ∃ ops t, Run (BlkStep kpb) s ops t ∧ t.pc = .idle ∧
      t.served = s.served ++ [BlkSystem.returned kpb r true] := by
  obtain ⟨ops, t, hr, hpc, hserved, hok, hchained, havail⟩ := h.post ha
  obtain ⟨j, hwork, hended⟩ := havail.take hchained hok.queueNum
  have htake : Run (BlkStep kpb) t [.take] (t.take kpb) :=
    .single ⟨havail.admits hchained hok.queueNum, rfl⟩
  obtain ⟨moves, m, j', hmoves, hm, hall⟩ :=
    BlkAtWork.moveAll ⟨hwork, hpc, hended, hserved⟩ r.bytes (le_refl _)
  have hlen : ∀ i < j'.data.len, i ∈ j'.moved := fun i hi => hall i (hm.len ▸ hi)
  have hstatus : Run (BlkStep kpb) m [.status 0] (m.writeStatus kpb 0) :=
    .single ⟨⟨j', hm.job, hm.ended, fun _ => hlen⟩, rfl⟩
  have hdone := hm.toBlkWorking.status (v := 0) fun _ => hlen
  have hpublish : Run (BlkStep kpb) (m.writeStatus kpb 0) [.publish]
      (m.writeStatus kpb 0).publish := .single ⟨⟨_, hdone.job, rfl⟩, rfl⟩
  have hahead := (hdone.publish rfl).ahead
  have hsame := @blkKept_device kpb m (.status 0) rfl
  have hwait : (m.writeStatus kpb 0).publish.pc = .poll r := hsame.pc.trans hm.pc
  have hback : (m.writeStatus kpb 0).publish.served = s.served := hsame.served.trans hm.served
  have hzero : (m.writeStatus kpb 0).publish.blk.status = virtioBlkSOk := by
    change (m.writeStatus kpb 0).blk.status = _
    unfold BlkSystem.writeStatus
    rw [hm.job]
    exact if_pos hm.statusAddr
  have hwork' := hr.append (htake.append (hmoves.append (hstatus.append hpublish)))
  generalize (m.writeStatus kpb 0).publish = p at *
  have hseen : p.driver kpb = { p with pc := .bumpLast r } := by
    unfold BlkSystem.driver
    rw [hwait]
    exact if_neg hahead
  have hreturn : Run (BlkStep kpb) p [.driver, .driver, .driver]
      { p with
        blk := { p.blk with lastUsedIdx := u16 (p.blk.lastUsedIdx + 1) }
        pc := .idle
        served := p.served ++
          [BlkSystem.returned kpb r (decide (p.blk.status = virtioBlkSOk))] } := by
    refine .cons ⟨?_, hseen.symm⟩ (.cons ⟨BlkPc.noConfusion, rfl⟩
      (.single ⟨BlkPc.noConfusion, rfl⟩))
    rw [BlkSystem.Admits, hwait]
    exact BlkPc.noConfusion
  refine ⟨_, _, hwork'.append hreturn, rfl, ?_⟩
  rw [hback, hzero]
  rfl

/-- The statics stay where they are. -/
theorem blkRun_static {t : BlkSystem} {ops : List BlkOp} (hr : Run (BlkStep kpb) s ops t) :
    t.Static kpb = s.Static kpb := by
  have hplaces : t.queueVa = s.queueVa ∧ t.blk.hdrVa = s.blk.hdrVa ∧
      t.blk.statusVa = s.blk.statusVa := by
    refine hr.preserves (I := fun t => t.queueVa = s.queueVa ∧ t.blk.hdrVa = s.blk.hdrVa ∧
      t.blk.statusVa = s.blk.statusVa) ?_ ⟨rfl, rfl, rfl⟩
    rintro a op _ ⟨hqueue, hhdr, hstatus⟩ ⟨-, rfl⟩
    cases op with
    | call r | store a v | take | publish => exact ⟨hqueue, hhdr, hstatus⟩
    | driver =>
      change (a.driver kpb).queueVa = _ ∧ (a.driver kpb).blk.hdrVa = _ ∧
        (a.driver kpb).blk.statusVa = _
      unfold BlkSystem.driver
      split
      case h_8 =>
        split <;> exact ⟨hqueue, hhdr, hstatus⟩
      all_goals exact ⟨hqueue, hhdr, hstatus⟩
    | move i =>
      change (a.move i).queueVa = _ ∧ (a.move i).blk.hdrVa = _ ∧ (a.move i).blk.statusVa = _
      unfold BlkSystem.move
      split
      next => exact ⟨hqueue, hhdr, hstatus⟩
      next =>
        dsimp only
        split <;> exact ⟨hqueue, hhdr, hstatus⟩
    | status v =>
      change (a.writeStatus kpb v).queueVa = _ ∧ (a.writeStatus kpb v).blk.hdrVa = _ ∧
        (a.writeStatus kpb v).blk.statusVa = _
      unfold BlkSystem.writeStatus
      split <;> exact ⟨hqueue, hhdr, hstatus⟩
  funext x
  unfold BlkSystem.Static
  rw [hplaces.1, hplaces.2.1, hplaces.2.2]

end Completion

/-- The driver's statics behind the kernel's code. -/
def sectorBlk : Blk :=
  ⟨0xC0100000, 0xC0100010, ⟨0, 0⟩, 0, fun _ => ⟨0, 0, 0, 0⟩, fun _ => 0, 0, 0⟩

/-- The system on a disk of sevens. -/
def sectorStart : BlkSystem :=
  blkStart 16 0xC0102000 sectorBlk (fun _ => 7) fun a => UInt8.ofNat a

/-- A request for the third sector, with its buffer in the kernel's heap. -/
theorem thirdSector_admits {s : BlkSystem} {ops : List BlkOp} {type : ℕ} (buf : ℕ)
    (hr : Run (BlkStep 0x40010000) sectorStart ops s) (hs : s.pc = .idle)
    (htype : type = virtioBlkTIn ∨ type = virtioBlkTOut)
    (hbuf : 0xC0200000 ≤ buf ∧ buf < 0xC0300000) :
    s.Admits 0x40010000 (.call ⟨type, 3, 1, buf⟩) := by
  refine ⟨hs, htype, fun i hi => ?_⟩
  rw [blkRun_static hr]
  have hbase : virtToPhys 0x40010000 buf = 0x40010000 + (buf - kernelVa) := by
    unfold virtToPhys
    rw [if_pos (by unfold kernelVa; omega), u32_of_lt (by unfold kernelVa; omega)]
  have hend : virtToPhys 0x40010000 0xC0102000 + 2 * pageSize = 0x40114000 := by decide
  have hqueue : virtToPhys 0x40010000 0xC0102000 + 2 * pageSize ≤ virtToPhys 0x40010000 buf := by
    rw [hbase, hend]
    unfold kernelVa
    omega
  have hhdr : virtToPhys 0x40010000 0xC0100000 + 16 ≤
      virtToPhys 0x40010000 0xC0102000 + 2 * pageSize := by decide
  have hstatus : virtToPhys 0x40010000 0xC0100010 + 1 ≤
      virtToPhys 0x40010000 0xC0102000 + 2 * pageSize := by decide
  dsimp only
  generalize virtToPhys 0x40010000 buf = pa at *
  rintro (⟨-, h⟩ | ⟨-, h⟩ | ⟨-, h⟩)
  · exact absurd (lt_of_le_of_lt (Nat.le_add_right pa i) h) (Nat.not_lt.mpr hqueue)
  · exact absurd (lt_of_le_of_lt (Nat.le_add_right pa i) h) (Nat.not_lt.mpr (hhdr.trans hqueue))
  · exact absurd (lt_of_le_of_lt (Nat.le_add_right pa i) h)
      (Nat.not_lt.mpr (hstatus.trans hqueue))

/-- In every order of the driver's accesses and the device's steps, the stores and requests that
have returned have happened one after the other, as on a disk that works at once. While a request
is posted, only its own bytes are moved; otherwise the device has nothing to do, and it never waits
for the driver while the driver waits for it. -/
theorem blkRun_disk {kpb qmax queueVa : ℕ} {b : Blk} {disk mem : ℕ → UInt8}
    (hq : queueSize ≤ qmax) {ops : List BlkOp} {s : BlkSystem}
    (hr : Run (BlkStep kpb) (blkStart qmax queueVa b disk mem) ops s) :
    ∃ u, Run DiskStep ⟨disk, mem⟩ s.served u ∧
      (s.pc.posted = none →
        s.job = none ∧ s.devIdx = s.blk.availIdx ∧ s.disk = u.disk ∧ s.mem = u.mem) ∧
      (∀ r, s.pc.posted = some r → ∃ moved, (∀ i ∈ moved, i < r.bytes) ∧
        (⟨s.disk, s.mem⟩ : DiskMem) = r.after kpb u moved) ∧
      ∀ r, s.pc = .poll r → s.usedIdx = s.blk.lastUsedIdx →
        ∃ op : BlkOp, op.ofDevice = true ∧ s.Admits kpb op := by
  obtain ⟨more, u, hserved, hu, hok⟩ := blkRun_ok hr (.start hq queueVa b disk mem)
  obtain rfl : s.served = more := hserved
  refine ⟨u, hu, fun hpc => ?_, fun r hpc => hok.moving hpc, fun r hpc hused => ?_⟩
  · have hquiet := hok.quiet hpc
    obtain ⟨hdisk, hmem⟩ := DiskMem.mk.inj hquiet.shown
    exact ⟨hquiet.job, hquiet.dev, hdisk, hmem⟩
  · have hphase := hok.phase
    rw [hpc] at hphase
    exact BlkPosted.progress hphase hok.queueNum hused

/-- The sector is written from the heap. -/
theorem thirdSector_disk : ∃ ops s u, Run (BlkStep 0x40010000) sectorStart ops s ∧
    s.served = [.write 3 (virtToPhys 0x40010000 0xC0200000) 512 true] ∧
    Run DiskStep ⟨fun _ => 7, fun a => UInt8.ofNat a⟩ s.served u ∧ s.disk = u.disk := by
  have hq : queueSize ≤ 16 := by decide
  have hstart : BlkOk 0x40010000 sectorStart _ := .start hq _ _ _ _
  obtain ⟨ops, s, hr, hs, hserved⟩ := hstart.complete
    (thirdSector_admits 0xC0200000 (.nil _) rfl (.inr rfl) (by decide))
  obtain ⟨u, hu, hquiet, -⟩ := blkRun_disk hq hr
  obtain ⟨-, -, hdisk, -⟩ := hquiet (by rw [hs]; rfl)
  exact ⟨ops, s, u, hr, hserved, hu, hdisk⟩

/-- The request may change the byte `x` of the disk. -/
def DiskOp.writes : DiskOp → ℕ → Prop
  | .write sector _ n _, x => sector * 512 ≤ x ∧ x < sector * 512 + n
  | _, _ => False

section ReadBack
variable {u v : DiskMem} {x : ℕ}

theorem moveBytes_mem {moved : List ℕ} (src dst : ℕ → UInt8) (a : ℕ) {b : ℕ} (hx : b ≤ x)
    (hmem : x - b ∈ moved) : moveBytes moved src dst a b x = src (a + (x - b)) :=
  if_pos ⟨hx, hmem⟩

theorem DiskStep.disk_kept {op : DiskOp} (hs : DiskStep u op v) (hx : ¬op.writes x) :
    v.disk x = u.disk x := by
  cases op with
  | store a b =>
    obtain rfl : v = { u with mem := Function.update u.mem a b } := hs
    rfl
  | read sector addr n ok =>
    obtain ⟨moved, -, rfl⟩ := hs
    rfl
  | write sector addr n ok =>
    obtain ⟨moved, hmoved, rfl⟩ := hs
    apply if_neg
    rintro ⟨hle, hmem⟩
    have hlt := hmoved.1 _ hmem
    exact hx ⟨hle, by omega⟩

theorem diskRun_kept {ops : List DiskOp} (hr : Run DiskStep u ops v)
    (hx : ∀ op ∈ ops, ¬op.writes x) : v.disk x = u.disk x := by
  induction hr with
  | nil => rfl
  | cons hs _ ih =>
    have hrest := ih fun op hop => hx op (List.mem_cons_of_mem _ hop)
    exact hrest.trans (hs.disk_kept (hx _ (List.mem_cons_self ..)))

theorem DiskStep.written {sector addr n : ℕ} (hs : DiskStep u (.write sector addr n true) v)
    (hle : sector * 512 ≤ x) (hlt : x < sector * 512 + n) :
    v.disk x = v.mem (addr + (x - sector * 512)) := by
  obtain ⟨moved, hmoved, rfl⟩ := hs
  exact moveBytes_mem _ _ _ hle (hmoved.2 rfl _ (by omega))

theorem DiskStep.fetched {sector addr n : ℕ} (hs : DiskStep u (.read sector addr n true) v)
    (hle : sector * 512 ≤ x) (hlt : x < sector * 512 + n) :
    v.mem (addr + (x - sector * 512)) = u.disk x := by
  obtain ⟨moved, hmoved, rfl⟩ := hs
  have hoff : addr + (x - sector * 512) - addr = x - sector * 512 := Nat.add_sub_cancel_left ..
  have hall := hmoved.2 rfl (x - sector * 512) (by omega)
  refine (moveBytes_mem _ _ _ (Nat.le_add_right ..) (by rwa [hoff])).trans ?_
  rw [hoff, Nat.add_sub_cancel' hle]

end ReadBack

/-- What a successful write took from memory, every later successful read of the same byte of the
disk brings back, unless a write in between may have changed that byte. -/
theorem blkRun_readBack {kpb qmax queueVa : ℕ} {b : Blk} {disk mem : ℕ → UInt8}
    (hq : queueSize ≤ qmax) {ops ops' : List BlkOp} {s t : BlkSystem}
    (hr : Run (BlkStep kpb) (blkStart qmax queueVa b disk mem) ops s) (hs : s.pc = .idle)
    (hr' : Run (BlkStep kpb) s ops' t) (ht : t.pc = .idle)
    {before mid : List DiskOp} {sector addr n sector' addr' n' : ℕ}
    (hwrite : s.served = before ++ [.write sector addr n true])
    (hread : t.served = s.served ++ (mid ++ [.read sector' addr' n' true]))
    {x : ℕ} (hx : sector * 512 ≤ x ∧ x < sector * 512 + n)
    (hx' : sector' * 512 ≤ x ∧ x < sector' * 512 + n') (hmid : ∀ op ∈ mid, ¬op.writes x) :
    t.mem (addr' + (x - sector' * 512)) = s.mem (addr + (x - sector * 512)) := by
  obtain ⟨more, u, hserved, hu, hok⟩ := blkRun_ok hr (.start hq queueVa b disk mem)
  obtain rfl : s.served = more := hserved
  obtain ⟨more', v, hserved', hv, hok'⟩ := blkRun_ok hr' hok
  obtain rfl : more' = mid ++ [.read sector' addr' n' true] :=
    List.append_cancel_left (hserved'.symm.trans hread)
  rw [hwrite] at hu
  obtain ⟨w, -, hlast⟩ := hu.split
  obtain ⟨w', hkept, hlast'⟩ := hv.split
  have hdisk : u.disk x = u.mem (addr + (x - sector * 512)) := by
    cases hlast with
    | cons hstep hnil =>
      cases hnil
      exact hstep.written hx.1 hx.2
  have hmem : v.mem (addr' + (x - sector' * 512)) = w'.disk x := by
    cases hlast' with
    | cons hstep hnil =>
      cases hnil
      exact hstep.fetched hx'.1 hx'.2
  obtain ⟨-, hsmem⟩ := DiskMem.mk.inj (hok.quiet (by rw [hs]; rfl)).shown
  obtain ⟨-, htmem⟩ := DiskMem.mk.inj (hok'.quiet (by rw [ht]; rfl)).shown
  rw [htmem, hsmem, hmem, diskRun_kept hkept hmid, hdisk]

/-- The sector is written from one place and read back to another. -/
theorem thirdSector_readBack : ∃ ops ops' s t, Run (BlkStep 0x40010000) sectorStart ops s ∧
    Run (BlkStep 0x40010000) s ops' t ∧
    s.served = [.write 3 (virtToPhys 0x40010000 0xC0200000) 512 true] ∧
    t.served = s.served ++ [.read 3 (virtToPhys 0x40010000 0xC0280000) 512 true] ∧
    t.mem (virtToPhys 0x40010000 0xC0280000 + 5) =
      s.mem (virtToPhys 0x40010000 0xC0200000 + 5) := by
  have hq : queueSize ≤ 16 := by decide
  have hstart : BlkOk 0x40010000 sectorStart _ := .start hq _ _ _ _
  obtain ⟨ops, s, hr, hs, hserved⟩ := hstart.complete
    (thirdSector_admits 0xC0200000 (.nil _) rfl (.inr rfl) (by decide))
  obtain ⟨-, u, -, -, hok⟩ := blkRun_ok hr hstart
  obtain ⟨ops', t, hr', ht, hserved'⟩ := hok.complete
    (thirdSector_admits 0xC0280000 hr hs (.inl rfl) (by decide))
  refine ⟨ops, ops', s, t, hr, hr', hserved, hserved', ?_⟩
  exact @blkRun_readBack _ _ _ _ _ _ hq _ _ _ _ hr hs hr' ht [] [] _ _ _ _ _ _ hserved hserved'
    1541 (by decide) (by decide) (fun _ h => absurd h List.not_mem_nil)

end Leg

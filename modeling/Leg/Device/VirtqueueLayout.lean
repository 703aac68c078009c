import Leg.Device.Blk
import Leg.Device.KbdQueue

/-! Where the rings of a legacy virtqueue lie in the queue's memory: where a device of the
negotiated size looks, and where the block and the keyboard driver put and fetch entries. -/
namespace Leg

/-- The two rings of a virtqueue. -/
inductive VqRing where
  | avail
  | used
  deriving DecidableEq

/-- The size that the drivers write to `VMIO_QUEUE_NUM`. -/
def vqNum (qmax : ℕ) : ℕ := if qmax < queueSize then qmax else queueSize

namespace Vring

/-- The device's available ring follows the descriptor table. -/
def avail (num : ℕ) : ℕ := 16 * num

/-- The device's used ring starts at the next page boundary. -/
def used (num : ℕ) : ℕ := (avail num + 4 + 2 * num + (pageSize - 1)) / pageSize * pageSize

/-- The offset at which the device has the `k`-th entry of a ring, the index running freely. -/
def entry (num : ℕ) : VqRing → ℕ → ℕ
  | .avail, k => avail num + 4 + 2 * (u16 k % num)
  | .used, k => used num + 4 + 8 * (u16 k % num)

end Vring

/-- The offset of `g_avail->ring[i]` in `g_queue_mem`. -/
def gAvailRing (i : ℕ) : ℕ := queueSize * 16 + 4 + 2 * i

/-- The offset of `g_used->ring[i]` in `g_queue_mem`. -/
def gUsedRing (i : ℕ) : ℕ := pageSize + 4 + 8 * i

/-- A driver's accesses to ring entries, in their order. -/
abbrev RingLog := List (VqRing × ℕ)

/-- The offsets of the entries of one ring. -/
def RingLog.offsets (log : RingLog) (ring : VqRing) : List ℕ :=
  (log.filter fun a => a.1 = ring).map Prod.snd

/-- Counted from `start`, each entry is where a device of size `num` has it. -/
def RingLog.FollowsFrom (num : ℕ) (start : VqRing → ℕ) (log : RingLog) : Prop :=
  ∀ ring k off, (log.offsets ring)[k]? = some off → off = Vring.entry num ring (start ring + k)

/-- Each entry of a driver is where a device of size `num` has it. -/
def RingLog.Follows (num : ℕ) (log : RingLog) : Prop := log.FollowsFrom num fun _ => 0

namespace RingLog
variable {num : ℕ} {start : VqRing → ℕ}

theorem FollowsFrom.nil : FollowsFrom num start [] := by
  intro ring k off h
  simp [offsets] at h

theorem offsets_cons (a : VqRing × ℕ) (log : RingLog) (ring : VqRing) :
    offsets (a :: log) ring = if a.1 = ring then a.2 :: offsets log ring else offsets log ring := by
  unfold offsets
  rw [List.filter_cons]
  by_cases h : a.1 = ring
  · rw [if_pos h, if_pos (decide_eq_true h), List.map_cons]
  · rw [if_neg h, if_neg (by simpa using h)]

theorem FollowsFrom.cons {ring : VqRing} {off : ℕ} {log : RingLog}
    (h : off = Vring.entry num ring (start ring))
    (hlog : log.FollowsFrom num (Function.update start ring (start ring + 1))) :
    FollowsFrom num start ((ring, off) :: log) := by
  intro ring' k off' hk
  have hrest := hlog ring'
  rw [offsets_cons] at hk
  by_cases hr : ring = ring'
  · subst hr
    rw [if_pos rfl] at hk
    rw [Function.update_self] at hrest
    cases k with
    | zero => exact (Option.some.inj hk).symm.trans h
    | succ k =>
      have hnext := hrest k off' hk
      rwa [Nat.add_assoc, Nat.add_comm 1 k] at hnext
  · rw [if_neg hr] at hk
    rw [Function.update_of_ne (Ne.symm hr)] at hrest
    exact hrest k off' hk

theorem Follows.head {ring : VqRing} {off : ℕ} {log : RingLog}
    (h : Follows num ((ring, off) :: log)) : off = Vring.entry num ring 0 := by
  apply h ring 0 off
  rw [offsets_cons, if_pos rfl]
  rfl

end RingLog

theorem gAvailRing_entry (k : ℕ) :
    gAvailRing (u16 k % queueSize) = Vring.entry queueSize .avail k := rfl

theorem gUsedRing_entry (k : ℕ) :
    gUsedRing (u16 k % queueSize) = Vring.entry queueSize .used k := rfl

theorem gAvailRing_zero_ne {num : ℕ} (h : num < queueSize) :
    gAvailRing 0 ≠ Vring.entry num .avail 0 := by
  unfold gAvailRing Vring.entry Vring.avail u16 queueSize at *
  dsimp only
  rw [Nat.zero_mod]
  omega

section Drivers
variable (kernelPhysBase : ℕ) (device : Blk → ℕ)

/-- `setup_requestq`, as far as it writes to the rings; `g_last_used_idx` starts at 0. -/
def Blk.setupRequestq (b : Blk) : Blk := { b with availIdx := 0, lastUsedIdx := 0 }

/-- The entries that the block driver publishes in a sequence of calls. It fetches none: it
only waits for the index of the used ring to move. -/
def blkLog (b : Blk) : List BlkCall → RingLog
  | [] => []
  | call :: calls => (.avail, gAvailRing (b.availIdx % queueSize)) ::
      blkLog (call.run kernelPhysBase device b).1 calls

theorem BlkCall.run_availIdx (b : Blk) (call : BlkCall) :
    (call.run kernelPhysBase device b).1.availIdx = u16 (b.availIdx + 1) := by
  cases call <;> rfl

theorem blkLog_follows (calls : List BlkCall) {b : Blk} {start : VqRing → ℕ}
    (h : b.availIdx = u16 (start .avail)) :
    (blkLog kernelPhysBase device b calls).FollowsFrom queueSize start := by
  induction calls generalizing b start with
  | nil => exact RingLog.FollowsFrom.nil
  | cons call calls ih =>
    apply RingLog.FollowsFrom.cons
    · rw [h, gAvailRing_entry]
    · apply ih
      rw [BlkCall.run_availIdx, h, u16_succ, Function.update_self]

/-- The entry that the keyboard driver publishes or fetches in a step. -/
def KbdSystem.access (s : KbdSystem) : KbdOp → RingLog
  | .driver =>
    match s.pc with
    | .readId => [(.used, gUsedRing (s.kbd.lastUsedIdx % queueSize))]
    | .writeRing _ => [(.avail, gAvailRing (s.kbd.availIdx % queueSize))]
    | _ => []
  | _ => []

/-- The entries of a sequence of steps. -/
def kbdSteps (c : KbdPlace) (s : KbdSystem) : List KbdOp → RingLog
  | [] => []
  | op :: ops => s.access op ++ kbdSteps c (s.next c op) ops

/-- The entries that `setup_eventq` publishes, and those of the steps after it. -/
def kbdLog (c : KbdPlace) (qmax : ℕ) (k : Kbd) (ops : List KbdOp) : RingLog :=
  (List.range queueSize).map (fun i => (.avail, gAvailRing i)) ++
    kbdSteps c (kbdStart c qmax k) ops

/-- The driver's indices count the entries it has published and fetched, but for those that
are under way. -/
structure KbdCounted (s : KbdSystem) (start : VqRing → ℕ) : Prop where
  avail : u16 (s.kbd.availIdx + s.pc.rewritten.length) = u16 (start .avail)
  availIdx : s.kbd.availIdx < 65536
  used : u16 (s.kbd.lastUsedIdx + s.pc.read) = u16 (start .used)
  lastUsedIdx : s.kbd.lastUsedIdx < 65536

/-- A step of the driver makes at most one access, to the entry that comes next. -/
theorem KbdCounted.step {s : KbdSystem} {start : VqRing → ℕ} (h : KbdCounted s start)
    (c : KbdPlace) (op : KbdOp) :
    (s.access op = [] ∧ KbdCounted (s.next c op) start) ∨
      ∃ ring, s.access op = [(ring, Vring.entry queueSize ring (start ring))] ∧
        KbdCounted (s.next c op) (Function.update start ring (start ring + 1)) := by
  obtain ⟨⟨keys, desc, ring, availIdx, uring, uidx, events, last, num⟩, pc, _, _, _, _, _⟩ := s
  obtain ⟨ha, hal, hu, hul⟩ := h
  dsimp only at ha hal hu hul
  cases op with
  | driver =>
    cases pc with
    | idle => exact .inl ⟨rfl, ha, hal, hu, hul⟩
    | test =>
      refine .inl ⟨rfl, ?_⟩
      unfold KbdSystem.next KbdSystem.driver
      dsimp only
      split <;> exact ⟨ha, hal, hu, hul⟩
    | readId =>
      have hlast : last = u16 (start .used) := (u16_of_lt hul).symm.trans hu
      refine .inr ⟨.used, by rw [← gUsedRing_entry, ← hlast]; rfl, ?_⟩
      constructor
      · rw [Function.update_of_ne (by decide)]
        exact ha
      · exact hal
      · rw [Function.update_self, ← u16_succ, ← hlast]
        rfl
      · exact hul
    | handle id => exact .inl ⟨rfl, ha, hal, hu, hul⟩
    | writeRing id =>
      have havail : availIdx = u16 (start .avail) := (u16_of_lt hal).symm.trans ha
      refine .inr ⟨.avail, by rw [← gAvailRing_entry, ← havail]; rfl, ?_⟩
      constructor
      · rw [Function.update_self, ← u16_succ, ← havail]
        rfl
      · exact hal
      · rw [Function.update_of_ne (by decide)]
        exact hu
      · exact hul
    | bumpAvail id =>
      refine .inl ⟨rfl, ?_, Nat.mod_lt _ (by decide), hu, hul⟩
      exact (u16_of_lt (Nat.mod_lt _ (by decide))).trans ha
    | bumpLast =>
      refine .inl ⟨rfl, ha, hal, ?_, Nat.mod_lt _ (by decide)⟩
      exact (u16_of_lt (Nat.mod_lt _ (by decide))).trans hu
  | take => exact .inl ⟨rfl, ha, hal, hu, hul⟩
  | fill id ev => exact .inl ⟨rfl, ha, hal, hu, hul⟩
  | use id len => exact .inl ⟨rfl, ha, hal, hu, hul⟩
  | publish =>
    refine .inl ⟨rfl, ?_⟩
    unfold KbdSystem.next KbdSystem.publish
    dsimp only
    split <;> exact ⟨ha, hal, hu, hul⟩

theorem kbdSteps_follows (c : KbdPlace) (ops : List KbdOp) {s : KbdSystem} {start : VqRing → ℕ}
    (h : KbdCounted s start) : (kbdSteps c s ops).FollowsFrom queueSize start := by
  induction ops generalizing s start with
  | nil => exact RingLog.FollowsFrom.nil
  | cons op ops ih =>
    rw [kbdSteps]
    rcases h.step c op with ⟨hnone, hnext⟩ | ⟨ring, hone, hnext⟩
    · rw [hnone]
      exact ih hnext
    · rw [hone]
      exact RingLog.FollowsFrom.cons rfl (ih hnext)

theorem setup_follows {n : ℕ} (hn : n ≤ queueSize) {log : RingLog}
    (h : log.FollowsFrom queueSize (Function.update (fun _ => 0) .avail n)) :
    RingLog.Follows queueSize ((List.range n).map (fun i => (.avail, gAvailRing i)) ++ log) := by
  induction n generalizing log with
  | zero =>
    rw [Function.update_eq_self] at h
    exact h
  | succ n ih =>
    rw [List.range_succ, List.map_append, List.append_assoc]
    apply ih (Nat.le_of_succ_le hn)
    apply RingLog.FollowsFrom.cons
    · rw [Function.update_self, ← gAvailRing_entry, u16_of_lt (by unfold queueSize at hn; omega),
        Nat.mod_eq_of_lt hn]
    · rw [Function.update_self, Function.update_idem]
      exact h

theorem kbdStart_counted (c : KbdPlace) (qmax : ℕ) (k : Kbd) :
    KbdCounted (kbdStart c qmax k) (Function.update (fun _ => 0) .avail queueSize) :=
  ⟨rfl, (by decide : queueSize < 65536), rfl, (by decide : 0 < 65536)⟩

theorem blkLog_follows_iff (b : Blk) (calls : List BlkCall) (qmax : ℕ) :
    (blkLog kernelPhysBase device b.setupRequestq calls).Follows (vqNum qmax) ↔
      calls = [] ∨ queueSize ≤ qmax := by
  unfold vqNum
  constructor
  · intro h
    by_contra hnot
    obtain ⟨hne, hsmall⟩ := not_or.mp hnot
    obtain ⟨call, calls, rfl⟩ := List.exists_cons_of_ne_nil hne
    rw [if_pos (Nat.lt_of_not_le hsmall)] at h
    exact gAvailRing_zero_ne (Nat.lt_of_not_le hsmall) h.head
  · rintro (rfl | hfull)
    · exact RingLog.FollowsFrom.nil
    · rw [if_neg (Nat.not_lt.mpr hfull)]
      exact blkLog_follows kernelPhysBase device calls rfl

theorem kbdLog_follows_iff (c : KbdPlace) (k : Kbd) (qmax : ℕ) (ops : List KbdOp) :
    (kbdLog c qmax k ops).Follows (vqNum qmax) ↔ queueSize ≤ qmax := by
  unfold vqNum
  constructor
  · intro h
    by_contra hsmall
    rw [if_pos (Nat.lt_of_not_le hsmall)] at h
    exact gAvailRing_zero_ne (Nat.lt_of_not_le hsmall) h.head
  · intro hfull
    rw [if_neg (Nat.not_lt.mpr hfull)]
    exact setup_follows (le_refl queueSize) (kbdSteps_follows c ops (kbdStart_counted c qmax k))

/-- For any sequence of requests and of steps, and whatever the device offers, each driver's
entries are where the device has them exactly when it offers the full queue. -/
theorem vq_layout_iff (b : Blk) (calls : List BlkCall) (c : KbdPlace) (k : Kbd) (qmax : ℕ)
    (ops : List KbdOp) :
    ((blkLog kernelPhysBase device b.setupRequestq calls).Follows (vqNum qmax) ↔
      calls = [] ∨ queueSize ≤ qmax) ∧
    ((kbdLog c qmax k ops).Follows (vqNum qmax) ↔ queueSize ≤ qmax) :=
  ⟨blkLog_follows_iff kernelPhysBase device b calls qmax, kbdLog_follows_iff c k qmax ops⟩

/-- A keyboard with eight entries looks for its first one at offset 132; the driver has put it
at 260. -/
theorem vq_layout_eight : ¬(kbdLog firstPlace 8 blankKbd []).Follows (vqNum 8) := by
  intro h
  exact absurd h.head (by decide)

end Drivers
end Leg

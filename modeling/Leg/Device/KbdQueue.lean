import Leg.Device.Kbd
import Leg.Lib.RingBuffer
import Mathlib.Data.List.Nodup

/-! The virtqueue protocol of the keyboard: whatever the order of the handler's and the device's
steps, no event is lost, handled twice or out of order, and every descriptor is in one place. -/
namespace Leg
open Runs

namespace KbdPc
variable (pc : KbdPc)

/-- The descriptor being handled: its id is read and it is not yet available again. -/
def held : KbdPc → List ℕ
  | .handle id | .writeRing id | .bumpAvail id => [id]
  | _ => []

/-- The descriptor that stands in the available ring behind those the index counts. -/
def rewritten : KbdPc → List ℕ
  | .bumpAvail id => [id]
  | _ => []

/-- How many used entries from `g_last_used_idx` on have been read. -/
def read : KbdPc → ℕ
  | .handle _ | .writeRing _ | .bumpAvail _ | .bumpLast => 1
  | _ => 0

/-- How many of them have been handled. -/
def done : KbdPc → ℕ
  | .writeRing _ | .bumpAvail _ | .bumpLast => 1
  | _ => 0

theorem done_le_read : pc.done ≤ pc.read := by
  cases pc <;> simp [done, read]

/-- How far the handler is with the entry after the last one it handled. -/
def rank : KbdPc → ℕ
  | .writeRing _ => 0
  | .bumpAvail _ => 1
  | .idle | .bumpLast => 2
  | .test => 3
  | .readId => 4
  | .handle _ => 5

end KbdPc

namespace KbdSystem
variable (s : KbdSystem)

/-- What the available ring holds for the device. -/
def posted : List ℕ :=
  (List.range (u16 (s.kbd.availIdx + (65536 - s.devIdx)))).map fun k =>
    s.kbd.availRing ((s.devIdx + k) % queueSize)

/-- The descriptors that the device may take, fill or publish. -/
def available : List ℕ := s.posted ++ (s.pending ++ s.staged)

/-- The completed descriptors that the handler has not taken up. -/
def waiting : List ℕ :=
  (s.completed.drop (s.handled.length + (s.pc.read - s.pc.done))).map Prod.fst

end KbdSystem

/-- The invariant: `n` used entries are behind `g_last_used_idx`, the device has taken `dev`
descriptors, and `free` are those it finds in the available ring. -/
structure KbdOk (c : KbdPlace) (s : KbdSystem) (n dev : ℕ) (free : List ℕ) : Prop where
  queueNum : s.kbd.queueNum = queueSize
  desc : ∀ i < queueSize, s.kbd.desc i = c.eventDesc i
  lastUsedIdx : s.kbd.lastUsedIdx = u16 n
  usedIdx : s.kbd.usedIdx = u16 s.completed.length
  availIdx : s.kbd.availIdx = u16 (dev + free.length)
  devIdx : s.devIdx = u16 dev
  avail : RingBuffer.Holds queueSize s.kbd.availRing dev (free ++ s.pc.rewritten)
  used : RingBuffer.Holds queueSize (fun i => (s.kbd.usedRing i).id) (n + s.pc.read)
    ((s.completed.drop (n + s.pc.read)).map Prod.fst ++ s.staged)
  read_le : n + s.pc.read ≤ s.completed.length
  more : s.pc = .readId → n < s.completed.length
  current : ∀ id, s.pc = .handle id → (s.completed[n]?).map Prod.fst = some id
  handled : s.handled = (s.completed.take (n + s.pc.done)).map Prod.snd
  parts : (free ++ (s.pending ++ (s.staged ++
    ((s.completed.drop (n + s.pc.read)).map Prod.fst ++ s.pc.held)))).Perm (List.range queueSize)
  events : ∀ p ∈ s.completed.drop (n + s.pc.done), s.kbd.events (c.eventPhys p.1) = p.2
  keys : s.kbd.keys = s.handled.foldl handleKbdEvent ⟨false, []⟩

section Parts
variable {c : KbdPlace} {s : KbdSystem} {n dev : ℕ} {free : List ℕ}

theorem KbdOk.lt_of_mem (h : KbdOk c s n dev free) {l : List ℕ} {id : ℕ} (hid : id ∈ l)
    (hl : l ⊆ free ++ (s.pending ++ (s.staged ++
      ((s.completed.drop (n + s.pc.read)).map Prod.fst ++ s.pc.held)))) : id < queueSize :=
  List.mem_range.mp (h.parts.mem_iff.mp (hl hid))

theorem KbdOk.length_parts (h : KbdOk c s n dev free) : free.length + s.pending.length +
    s.staged.length + (s.completed.length - (n + s.pc.read)) + s.pc.held.length = queueSize := by
  have := h.parts.length_eq
  simp only [List.length_append, List.length_map, List.length_drop, List.length_range] at this
  omega

theorem KbdOk.unhandled_mem (h : KbdOk c s n dev free) {p : ℕ × InputEvent}
    (hp : p ∈ s.completed.drop (n + s.pc.done)) :
    p.1 ∈ (s.completed.drop (n + s.pc.read)).map Prod.fst ++ s.pc.held := by
  cases hpc : s.pc with
  | handle id =>
    rw [hpc] at hp
    have hn : n < s.completed.length := by
      have := h.read_le
      rw [hpc] at this
      exact this
    have hcur := h.current id hpc
    rw [List.getElem?_eq_getElem hn, Option.map_some, Option.some_inj] at hcur
    rw [show n + (KbdPc.handle id).done = n from rfl, List.drop_eq_getElem_cons hn] at hp
    rcases List.mem_cons.mp hp with rfl | hp
    · rw [hcur]
      exact List.mem_append_right _ (List.mem_singleton_self _)
    · exact List.mem_append_left _ (List.mem_map_of_mem hp)
  | _ =>
    rw [hpc] at hp
    exact List.mem_append_left _ (List.mem_map_of_mem hp)

theorem KbdOk.pending_ne (h : KbdOk c s n dev free) {p : ℕ × InputEvent}
    (hp : p ∈ s.completed.drop (n + s.pc.done)) {id : ℕ} (hid : id ∈ s.pending) : p.1 ≠ id := by
  rintro rfl
  have hnodup := h.parts.nodup_iff.mpr List.nodup_range
  have hrest := (List.nodup_append.mp hnodup).2.1
  exact List.disjoint_of_nodup_append hrest hid (List.mem_append_right _ (h.unhandled_mem hp))

end Parts

section Driver
variable {c : KbdPlace} {k : Kbd} {pc : KbdPc} {devIdx : ℕ} {pending staged : List ℕ}
  {completed : List (ℕ × InputEvent)} {handled : List InputEvent} {n dev : ℕ} {free : List ℕ}

theorem KbdOk.enter
    (h : KbdOk c ⟨k, .idle, devIdx, pending, staged, completed, handled⟩ n dev free) :
    KbdOk c ⟨k, .test, devIdx, pending, staged, completed, handled⟩ n dev free :=
  ⟨h.queueNum, h.desc, h.lastUsedIdx, h.usedIdx, h.availIdx, h.devIdx, h.avail, h.used, h.read_le,
    fun hf => absurd hf (by simp), fun _ hf => absurd hf (by simp), h.handled, h.parts, h.events,
    h.keys⟩

theorem KbdOk.test_iff
    (h : KbdOk c ⟨k, .test, devIdx, pending, staged, completed, handled⟩ n dev free) :
    k.lastUsedIdx ≠ k.usedIdx ↔ n < completed.length := by
  have hlast : k.lastUsedIdx = u16 n := h.lastUsedIdx
  have hused : k.usedIdx = u16 completed.length := h.usedIdx
  have hle : n ≤ completed.length := h.read_le
  have hlen : free.length + pending.length + staged.length + (completed.length - n) + 0 =
    queueSize := h.length_parts
  rw [hlast, hused]
  unfold u16 queueSize at *
  omega

theorem KbdOk.tested
    (h : KbdOk c ⟨k, .test, devIdx, pending, staged, completed, handled⟩ n dev free) :
    KbdOk c ⟨k, if k.lastUsedIdx ≠ k.usedIdx then .readId else .idle, devIdx, pending, staged,
      completed, handled⟩ n dev free := by
  by_cases hne : k.lastUsedIdx ≠ k.usedIdx
  · rw [if_pos hne]
    exact ⟨h.queueNum, h.desc, h.lastUsedIdx, h.usedIdx, h.availIdx, h.devIdx, h.avail, h.used,
      h.read_le, fun _ => h.test_iff.mp hne, fun _ hf => absurd hf (by simp), h.handled, h.parts,
      h.events, h.keys⟩
  · rw [if_neg hne]
    exact ⟨h.queueNum, h.desc, h.lastUsedIdx, h.usedIdx, h.availIdx, h.devIdx, h.avail, h.used,
      h.read_le, fun hf => absurd hf (by simp), fun _ hf => absurd hf (by simp), h.handled,
      h.parts, h.events, h.keys⟩

/-- The handler takes up the next completed descriptor. -/
theorem KbdOk.readId
    (h : KbdOk c ⟨k, .readId, devIdx, pending, staged, completed, handled⟩ n dev free) :
    KbdOk c ⟨k, .handle (k.usedRing (k.lastUsedIdx % queueSize)).id, devIdx, pending, staged,
      completed, handled⟩ n dev free := by
  have hn : n < completed.length := h.more rfl
  have hdrop := List.drop_eq_getElem_cons hn
  have hused : RingBuffer.Holds queueSize (fun i => (k.usedRing i).id) n
      ((completed.drop n).map Prod.fst ++ staged) := h.used
  have hparts : (free ++ (pending ++ (staged ++ ((completed.drop n).map Prod.fst ++ [])))).Perm
    (List.range queueSize) := h.parts
  rw [hdrop, List.map_cons, List.cons_append] at hused hparts
  have hid : (k.usedRing (k.lastUsedIdx % queueSize)).id = completed[n].1 := by
    rw [show k.lastUsedIdx = u16 n from h.lastUsedIdx, ← Nat.add_zero (u16 n), u16_add_mod]
    exact hused.head
  rw [hid]
  refine ⟨h.queueNum, h.desc, h.lastUsedIdx, h.usedIdx, h.availIdx, h.devIdx, h.avail, hused.pop,
    hn, fun hf => absurd hf (by simp), fun id hf => ?_, h.handled, ?_, h.events, h.keys⟩
  · rw [← KbdPc.handle.inj hf, List.getElem?_eq_getElem hn]
    rfl
  · refine List.Perm.trans ?_ hparts
    refine (((List.perm_append_singleton _ _).trans ?_).append_left _
      |>.append_left _).append_left _
    rw [List.append_nil]
    exact .refl _

/-- `handle_kbd_event` is given the event of the oldest unhandled entry. -/
theorem KbdOk.handle {id : ℕ}
    (h : KbdOk c ⟨k, .handle id, devIdx, pending, staged, completed, handled⟩ n dev free) :
    KbdOk c ⟨{ k with keys := handleKbdEvent k.keys (k.events (c.eventPhys id)) }, .writeRing id,
      devIdx, pending, staged, completed, handled ++ [k.events (c.eventPhys id)]⟩ n dev free := by
  have hn : n < completed.length := h.read_le
  have hdrop := List.drop_eq_getElem_cons hn
  have hid : completed[n].1 = id := by
    have := h.current id rfl
    rwa [List.getElem?_eq_getElem hn, Option.map_some, Option.some_inj] at this
  have hevents : ∀ p ∈ completed.drop n, k.events (c.eventPhys p.1) = p.2 := h.events
  have hkeys : k.keys = handled.foldl handleKbdEvent ⟨false, []⟩ := h.keys
  have hhandled : handled = (completed.take n).map Prod.snd := h.handled
  rw [hdrop] at hevents
  have hev : k.events (c.eventPhys id) = completed[n].2 := by
    rw [← hid]
    exact hevents _ (List.mem_cons_self ..)
  refine ⟨h.queueNum, h.desc, h.lastUsedIdx, h.usedIdx, h.availIdx, h.devIdx, h.avail, h.used, hn,
    fun hf => absurd hf (by simp), fun _ hf => absurd hf (by simp), ?_, h.parts,
    fun p hp => hevents p (List.mem_cons_of_mem _ hp), ?_⟩
  · change handled ++ _ = (completed.take (n + 1)).map Prod.snd
    rw [hev, hhandled, List.take_add_one, List.getElem?_eq_getElem hn, List.map_append]
    rfl
  · change handleKbdEvent k.keys _ = (handled ++ _).foldl handleKbdEvent _
    rw [List.foldl_append, ← hkeys]
    rfl

theorem KbdOk.writeRing {id : ℕ}
    (h : KbdOk c ⟨k, .writeRing id, devIdx, pending, staged, completed, handled⟩ n dev free) :
    KbdOk c ⟨{ k with
        availRing := Function.update k.availRing (k.availIdx % queueSize) (u16 id) }, .bumpAvail id,
      devIdx, pending, staged, completed, handled⟩ n dev free := by
  have hlen : free.length + pending.length + staged.length + (completed.length - (n + 1)) + 1 =
    queueSize := h.length_parts
  have hid : id < queueSize := h.lt_of_mem (List.mem_singleton_self id) fun x hx =>
    List.mem_append_right _ (List.mem_append_right _ (List.mem_append_right _
      (List.mem_append_right _ hx)))
  have havail : RingBuffer.Holds queueSize k.availRing dev (free ++ []) := h.avail
  rw [List.append_nil] at havail
  have hcell : k.availIdx % queueSize = (dev + free.length) % queueSize := by
    rw [show k.availIdx = u16 (dev + free.length) from h.availIdx, ← Nat.add_zero (u16 _),
      u16_add_mod, Nat.add_zero]
  rw [hcell, u16_of_lt (by unfold queueSize at hid; omega)]
  exact ⟨h.queueNum, h.desc, h.lastUsedIdx, h.usedIdx, h.availIdx, h.devIdx,
    havail.push (by omega) id, h.used, h.read_le, fun hf => absurd hf (by simp),
    fun _ hf => absurd hf (by simp), h.handled, h.parts, h.events, h.keys⟩

theorem KbdOk.bumpAvail {id : ℕ}
    (h : KbdOk c ⟨k, .bumpAvail id, devIdx, pending, staged, completed, handled⟩ n dev free) :
    KbdOk c ⟨{ k with availIdx := u16 (k.availIdx + 1) }, .bumpLast, devIdx, pending, staged,
      completed, handled⟩ n dev (free ++ [id]) := by
  refine ⟨h.queueNum, h.desc, h.lastUsedIdx, h.usedIdx, ?_, h.devIdx, ?_, h.used, h.read_le,
    fun hf => absurd hf (by simp), fun _ hf => absurd hf (by simp), h.handled, ?_, h.events, h.keys⟩
  · change u16 (k.availIdx + 1) = _
    rw [show k.availIdx = u16 (dev + free.length) from h.availIdx, u16_succ, List.length_append,
      List.length_singleton, Nat.add_assoc]
  · change RingBuffer.Holds queueSize k.availRing dev (free ++ [id] ++ [])
    rw [List.append_nil]
    exact h.avail
  · refine List.Perm.trans (List.perm_iff_count.mpr fun x => ?_) h.parts
    simp only [KbdPc.held, KbdPc.read, List.count_append, List.count_nil]
    omega

theorem KbdOk.bumpLast
    (h : KbdOk c ⟨k, .bumpLast, devIdx, pending, staged, completed, handled⟩ n dev free) :
    KbdOk c ⟨{ k with lastUsedIdx := u16 (k.lastUsedIdx + 1) }, .test, devIdx, pending, staged,
      completed, handled⟩ (n + 1) dev free := by
  refine ⟨h.queueNum, h.desc, ?_, h.usedIdx, h.availIdx, h.devIdx, h.avail, h.used, h.read_le,
    fun hf => absurd hf (by simp), fun _ hf => absurd hf (by simp), h.handled, h.parts, h.events,
    h.keys⟩
  change u16 (k.lastUsedIdx + 1) = _
  rw [show k.lastUsedIdx = u16 n from h.lastUsedIdx, u16_succ]

end Driver

section Device
variable {c : KbdPlace} {s : KbdSystem} {n dev : ℕ} {free : List ℕ}

theorem KbdOk.take_iff (h : KbdOk c s n dev free) : s.devIdx ≠ s.kbd.availIdx ↔ free ≠ [] := by
  have hlen := h.length_parts
  rw [h.devIdx, h.availIdx, ← List.length_pos_iff]
  unfold u16 queueSize at *
  omega

theorem KbdOk.take (h : KbdOk c s n dev free) (hne : s.devIdx ≠ s.kbd.availIdx) :
    ∃ free', KbdOk c s.take n (dev + 1) free' := by
  obtain ⟨x, xs, rfl⟩ := List.exists_cons_of_ne_nil (h.take_iff.mp hne)
  have havail := h.avail
  rw [List.cons_append] at havail
  have hx : s.kbd.availRing (s.devIdx % s.kbd.queueNum) = x := by
    rw [h.queueNum, h.devIdx, ← Nat.add_zero (u16 dev), u16_add_mod]
    exact havail.head
  refine ⟨xs, h.queueNum, h.desc, h.lastUsedIdx, h.usedIdx, ?_, ?_, havail.pop, h.used, h.read_le,
    h.more, h.current, h.handled, ?_, h.events, h.keys⟩
  · change s.kbd.availIdx = _
    rw [h.availIdx, List.length_cons, Nat.add_assoc, Nat.add_comm 1]
  · change u16 (s.devIdx + 1) = _
    rw [h.devIdx, u16_succ]
  · refine List.Perm.trans ?_ h.parts
    change (xs ++ (s.kbd.availRing (s.devIdx % s.kbd.queueNum) :: s.pending ++ _)).Perm _
    rw [hx]
    exact List.perm_middle

theorem KbdOk.fill (h : KbdOk c s n dev free) {id : ℕ} (hid : id ∈ s.pending) (ev : InputEvent) :
    KbdOk c (s.fill id ev) n dev free := by
  have hlt : id < queueSize := h.lt_of_mem hid fun x hx =>
    List.mem_append_right _ (List.mem_append_left _ hx)
  refine ⟨h.queueNum, h.desc, h.lastUsedIdx, h.usedIdx, h.availIdx, h.devIdx, h.avail, h.used,
    h.read_le, h.more, h.current, h.handled, h.parts, fun p hp => ?_, h.keys⟩
  have hplt : p.1 < queueSize := h.lt_of_mem (h.unhandled_mem hp) fun x hx =>
    List.mem_append_right _ (List.mem_append_right _ (List.mem_append_right _ hx))
  change Function.update s.kbd.events (s.kbd.desc id).addr ev (c.eventPhys p.1) = p.2
  rw [h.desc id hlt, Function.update_of_ne]
  · exact h.events p hp
  · exact fun heq => h.pending_ne hp hid (c.eventPhys_inj hplt hlt heq)

theorem KbdOk.use (h : KbdOk c s n dev free) {id : ℕ} (hid : id ∈ s.pending) (len : ℕ) :
    KbdOk c (s.use id len) n dev free := by
  have hpos := List.length_pos_of_mem hid
  have hlen := h.length_parts
  have hwaiting : ((s.completed.drop (n + s.pc.read)).map Prod.fst ++ s.staged).length =
      s.completed.length - (n + s.pc.read) + s.staged.length := by simp
  have hle := h.read_le
  have hcell : u16 (s.kbd.usedIdx + s.staged.length) % s.kbd.queueNum = (n + s.pc.read +
      ((s.completed.drop (n + s.pc.read)).map Prod.fst ++ s.staged).length) % queueSize := by
    rw [h.queueNum, h.usedIdx, hwaiting]
    unfold u16 queueSize
    omega
  have hpush := h.used.push (by omega) id
  rw [List.append_assoc, ← hcell] at hpush
  refine ⟨h.queueNum, h.desc, h.lastUsedIdx, h.usedIdx, h.availIdx, h.devIdx, h.avail, ?_,
    h.read_le, h.more, h.current, h.handled, ?_, h.events, h.keys⟩
  · have hids : (fun i => ((s.use id len).kbd.usedRing i).id) = Function.update
        (fun i => (s.kbd.usedRing i).id)
        (u16 (s.kbd.usedIdx + s.staged.length) % s.kbd.queueNum) id := by
      funext i
      simp only [KbdSystem.use, Function.update_apply]
      split <;> rfl
    rw [hids]
    exact hpush
  · refine List.Perm.trans ?_ h.parts
    refine List.Perm.append_left free ?_
    refine (((List.perm_cons_erase hid).append_right _).trans ?_).symm
    refine List.perm_iff_count.mpr fun x => ?_
    simp only [KbdSystem.use, List.count_append, List.cons_append, List.count_cons, List.count_nil]
    omega

/-- A published entry is completed with the event its buffer holds. -/
theorem KbdOk.publish (h : KbdOk c s n dev free) (hne : s.staged ≠ []) :
    KbdOk c s.publish n dev free := by
  obtain ⟨id, ids, hst⟩ := List.exists_cons_of_ne_nil hne
  have hlt : id < queueSize := h.lt_of_mem (l := [id]) (List.mem_singleton_self id) fun x hx =>
    List.mem_append_right _ (List.mem_append_right _ (List.mem_append_left _ (by
      rw [hst, List.mem_singleton.mp hx]
      exact List.mem_cons_self ..)))
  have hle := h.read_le
  have hdone : n + s.pc.done ≤ s.completed.length :=
    le_trans (Nat.add_le_add_left s.pc.done_le_read n) hle
  have hpub : s.publish = { s with
      kbd := { s.kbd with usedIdx := u16 (s.kbd.usedIdx + 1) }
      staged := ids
      completed := s.completed ++ [(id, s.kbd.events (c.eventPhys id))] } := by
    unfold KbdSystem.publish
    rw [hst]
    dsimp only
    rw [h.desc id hlt]
    rfl
  rw [hpub]
  have hdrop : (s.completed ++ [(id, s.kbd.events (c.eventPhys id))]).drop (n + s.pc.read) =
      s.completed.drop (n + s.pc.read) ++ [(id, s.kbd.events (c.eventPhys id))] :=
    List.drop_append_of_le_length hle
  refine ⟨h.queueNum, h.desc, h.lastUsedIdx, ?_, h.availIdx, h.devIdx, h.avail, ?_, ?_,
    fun hpc => ?_,
    fun j hpc => ?_, ?_, ?_, fun p hp => ?_, h.keys⟩
  · dsimp only
    rw [h.usedIdx, u16_succ, List.length_append, List.length_singleton]
  · dsimp only
    rw [hdrop, List.map_append, List.append_assoc]
    have hused := h.used
    rw [hst] at hused
    exact hused
  · dsimp only
    rw [List.length_append]
    exact Nat.le_add_right_of_le hle
  · dsimp only
    rw [List.length_append]
    exact Nat.lt_add_right _ (h.more hpc)
  · dsimp only at hpc ⊢
    have hn : n < s.completed.length := by
      rw [hpc] at hle
      exact hle
    rw [List.getElem?_append_left hn]
    exact h.current j hpc
  · dsimp only
    rw [List.take_append_of_le_length hdone]
    exact h.handled
  · dsimp only
    rw [hdrop]
    refine List.Perm.trans (List.perm_iff_count.mpr fun x => ?_) h.parts
    rw [hst]
    simp only [List.map_append, List.map_cons, List.map_nil, List.count_append, List.count_cons,
      List.count_nil]
    omega
  · dsimp only at hp ⊢
    rw [List.drop_append_of_le_length hdone] at hp
    rcases List.mem_append.mp hp with hp | hp
    · exact h.events p hp
    · rw [List.mem_singleton.mp hp]

end Device

section Run
variable {c : KbdPlace} {s t : KbdSystem}

theorem kbdStep_ok {n dev : ℕ} {free : List ℕ} {op : KbdOp} (h : KbdOk c s n dev free)
    (hs : KbdStep c s op t) : ∃ n' dev' free', KbdOk c t n' dev' free' := by
  obtain ⟨hadm, rfl⟩ := hs
  cases op with
  | driver =>
    obtain ⟨k, pc, devIdx, pending, staged, completed, handled⟩ := s
    cases pc with
    | idle => exact ⟨n, dev, free, h.enter⟩
    | test => exact ⟨n, dev, free, h.tested⟩
    | readId => exact ⟨n, dev, free, h.readId⟩
    | handle id => exact ⟨n, dev, free, h.handle⟩
    | writeRing id => exact ⟨n, dev, free, h.writeRing⟩
    | bumpAvail id => exact ⟨n, dev, _, h.bumpAvail⟩
    | bumpLast => exact ⟨n + 1, dev, free, h.bumpLast⟩
  | take =>
    obtain ⟨free', h'⟩ := h.take hadm
    exact ⟨n, dev + 1, free', h'⟩
  | fill id ev => exact ⟨n, dev, free, h.fill hadm.1 ev⟩
  | use id len => exact ⟨n, dev, free, h.use hadm len⟩
  | publish => exact ⟨n, dev, free, h.publish hadm⟩

theorem kbdStart_ok (c : KbdPlace) {qmax : ℕ} (hq : queueSize ≤ qmax) (k : Kbd) :
    KbdOk c (kbdStart c qmax k) 0 0 (List.range queueSize) := by
  refine ⟨if_neg (Nat.not_lt.mpr hq), fun i hi => if_pos hi, rfl, rfl, rfl, rfl,
    ⟨by simp [kbdStart, KbdPc.rewritten], fun i hi => ?_⟩, .nil, le_refl _,
    fun hf => absurd hf (by simp [kbdStart]), fun _ hf => absurd hf (by simp [kbdStart]), rfl, ?_,
    by simp [kbdStart], rfl⟩
  · have hi' : i < queueSize := by simpa [kbdStart, KbdPc.rewritten] using hi
    simp only [kbdStart, KbdPlace.setupEventq, KbdPc.rewritten, Nat.zero_add, Nat.mod_eq_of_lt hi',
      if_pos hi', List.append_nil, List.getElem_range]
    exact u16_of_lt (by unfold queueSize at hi'; omega)
  · simp [kbdStart, KbdPc.held, KbdPc.read]

/-- What the protocol promises: the events handled are the first ones completed, in order; at most
`QUEUE_SIZE` completed events wait; the buffer of a waiting event still holds it and the device
cannot touch it; and each descriptor is available, waiting, or being handled. -/
structure KbdProtocol (c : KbdPlace) (s : KbdSystem) : Prop where
  inOrder : s.handled = (s.completed.map Prod.snd).take s.handled.length
  bounded : s.completed.length ≤ s.handled.length + queueSize
  buffers : ∀ p ∈ s.completed.drop s.handled.length,
    s.kbd.events (c.eventPhys p.1) = p.2 ∧ p.1 ∉ s.available
  parts : (s.available ++ (s.waiting ++ s.pc.held)).Perm (List.range queueSize)
  keys : s.kbd.keys = s.handled.foldl handleKbdEvent ⟨false, []⟩

theorem KbdOk.handled_length {n dev : ℕ} {free : List ℕ} (h : KbdOk c s n dev free) :
    s.handled.length = n + s.pc.done := by
  have hle := h.read_le
  have hpc := s.pc.done_le_read
  rw [h.handled, List.length_map, List.length_take]
  omega

theorem KbdOk.posted_eq {n dev : ℕ} {free : List ℕ} (h : KbdOk c s n dev free) :
    s.posted = free := by
  have hlen := h.length_parts
  have hcount : u16 (s.kbd.availIdx + (65536 - s.devIdx)) = free.length := by
    rw [h.availIdx, h.devIdx]
    unfold u16 queueSize at *
    omega
  have hfree : RingBuffer.Holds queueSize s.kbd.availRing dev free := by
    refine ⟨by omega, fun i hi => ?_⟩
    rw [h.avail.get i (by rw [List.length_append]; omega), List.getElem_append_left hi]
  unfold KbdSystem.posted
  rw [hcount, ← hfree.read]
  simp only [List.length_map, List.length_range, h.devIdx, u16_add_mod]

theorem KbdOk.protocol {n dev : ℕ} {free : List ℕ} (h : KbdOk c s n dev free) :
    KbdProtocol c s := by
  have hcount := h.handled_length
  have hread := s.pc.done_le_read
  have hlen := h.length_parts
  have hle := h.read_le
  have hwaiting : s.waiting = (s.completed.drop (n + s.pc.read)).map Prod.fst := by
    unfold KbdSystem.waiting
    rw [hcount, Nat.add_assoc, Nat.add_sub_cancel' hread]
  have hheld : s.pc.read - s.pc.done ≤ s.pc.held.length := by
    cases s.pc <;> simp [KbdPc.read, KbdPc.done, KbdPc.held]
  have hparts : (s.available ++ (s.waiting ++ s.pc.held)).Perm (List.range queueSize) := by
    unfold KbdSystem.available
    rw [h.posted_eq, hwaiting, List.append_assoc, List.append_assoc]
    exact h.parts
  refine ⟨?_, by omega, fun p hp => ?_, hparts, h.keys⟩
  · rw [hcount, ← List.map_take]
    exact h.handled
  · rw [hcount] at hp
    refine ⟨h.events p hp, fun hav => ?_⟩
    have hmem := h.unhandled_mem hp
    rw [← hwaiting] at hmem
    exact List.disjoint_of_nodup_append (hparts.nodup_iff.mpr List.nodup_range) hav hmem

/-- The steps of the handler in a schedule. -/
def driverSteps (ops : List KbdOp) : ℕ :=
  ops.countP fun op => match op with
    | .driver => true
    | _ => false

theorem driverSteps_cons (op : KbdOp) (ops : List KbdOp) :
    driverSteps (op :: ops) = driverSteps [op] + driverSteps ops := by
  unfold driverSteps
  rw [← List.countP_append, List.singleton_append]

theorem kbdStep_mono {op : KbdOp} (hs : KbdStep c s op t) :
    s.completed <+: t.completed ∧ s.handled.length ≤ t.handled.length := by
  obtain ⟨-, rfl⟩ := hs
  cases op with
  | driver => cases hpc : s.pc <;> simp [KbdSystem.next, KbdSystem.driver, hpc]
  | publish => rcases hst : s.staged with _ | ⟨id, ids⟩ <;>
      simp [KbdSystem.next, KbdSystem.publish, hst]
  | _ => exact ⟨List.prefix_refl _, le_refl _⟩

/-- While an event is waiting, each step of the handler brings it nearer. -/
theorem kbdStep_rank {n dev : ℕ} {free : List ℕ} {op : KbdOp} (h : KbdOk c s n dev free)
    (hs : KbdStep c s op t) (hwait : s.handled.length < s.completed.length) :
    6 * s.handled.length + s.pc.rank + driverSteps [op] ≤
      6 * t.handled.length + t.pc.rank := by
  obtain ⟨-, rfl⟩ := hs
  have hcount := h.handled_length
  cases op with
  | driver =>
    obtain ⟨k, pc, devIdx, pending, staged, completed, handled⟩ := s
    cases pc with
    | test =>
      have hne := h.test_iff.mpr (by
        have : handled.length = n := hcount
        dsimp only at hwait
        omega)
      simp [KbdSystem.next, KbdSystem.driver, hne, KbdPc.rank, driverSteps]
    | handle id =>
      simp [KbdSystem.next, KbdSystem.driver, KbdPc.rank, driverSteps]
      omega
    | _ => simp [KbdSystem.next, KbdSystem.driver, KbdPc.rank, driverSteps]
  | publish => rcases hst : s.staged with _ | ⟨id, ids⟩ <;>
      simp [KbdSystem.next, KbdSystem.publish, hst, driverSteps]
  | _ => simp [KbdSystem.next, KbdSystem.take, KbdSystem.fill, KbdSystem.use, driverSteps]

/-- Six steps of the handler for each of the first `m` events handle them all, whatever the device
does meanwhile. -/
theorem kbdRun_rank {ops : List KbdOp} {m : ℕ} (hr : Run (KbdStep c) s ops t)
    (h : ∃ n dev free, KbdOk c s n dev free) (hm : m ≤ s.completed.length) :
    s.completed <+: t.completed ∧ (∃ n dev free, KbdOk c t n dev free) ∧
      (m ≤ t.handled.length ∨ 6 * s.handled.length + s.pc.rank + driverSteps ops ≤
        6 * t.handled.length + t.pc.rank) := by
  induction hr with
  | nil s => exact ⟨List.prefix_refl _, h, .inr (le_refl _)⟩
  | @cons s u t op ops hs hrest ih =>
    obtain ⟨n, dev, free, hok⟩ := h
    obtain ⟨hpre, hhandled⟩ := kbdStep_mono hs
    have hmu := le_trans hm hpre.length_le
    obtain ⟨hpre', hok', hrank⟩ := ih (kbdStep_ok hok hs) hmu
    refine ⟨hpre.trans hpre', hok', ?_⟩
    by_cases hwait : m ≤ s.handled.length
    · have hmono : u.handled.length ≤ t.handled.length :=
        hrest.preserves (I := fun v => u.handled.length ≤ v.handled.length)
          (fun _ _ _ hle hstep => le_trans hle (kbdStep_mono hstep).2) (le_refl _)
      exact .inl (by omega)
    · refine hrank.imp id fun hle => ?_
      have hnear := kbdStep_rank hok hs (by omega)
      rw [driverSteps_cons]
      omega

/-- In every run of the handler and a device that follows virtio, of any length, the protocol
holds; and once the handler has taken six steps for each waiting event, all are handled. -/
theorem kbdRun_protocol {qmax : ℕ} {k : Kbd} {ops : List KbdOp} (hq : queueSize ≤ qmax)
    (hr : Run (KbdStep c) (kbdStart c qmax k) ops s) : KbdProtocol c s ∧
    ∀ later t, Run (KbdStep c) s later t →
      6 * (s.completed.length - s.handled.length) ≤ driverSteps later →
      s.completed.map Prod.snd <+: t.handled := by
  have hok : ∃ n dev free, KbdOk c s n dev free :=
    hr.preserves (I := fun v => ∃ n dev free, KbdOk c v n dev free)
      (fun _ _ _ ⟨_, _, _, h⟩ hs => kbdStep_ok h hs) ⟨0, 0, _, kbdStart_ok c hq k⟩
  refine ⟨?_, fun later t hlater hsteps => ?_⟩
  · obtain ⟨n, dev, free, h⟩ := hok
    exact h.protocol
  obtain ⟨hpre, ⟨n, dev, free, ht⟩, hrank⟩ := kbdRun_rank hlater hok (le_refl _)
  have hlast : t.pc.rank ≤ 5 := by
    cases t.pc <;> simp [KbdPc.rank]
  have hall : s.completed.length ≤ t.handled.length := by
    rcases hrank with hall | hrank <;> omega
  rw [ht.protocol.inOrder]
  refine List.prefix_take_iff.mpr ⟨hpre.map _, ?_⟩
  rw [List.length_map]
  exact hall

end Run

/-- Memory before `kbd_init`. -/
def blankKbd : Kbd where
  keys := ⟨false, []⟩
  desc _ := ⟨0, 0, 0, 0⟩
  availRing _ := 0
  availIdx := 0
  usedRing _ := ⟨0, 0⟩
  usedIdx := 0
  events _ := ⟨0, 0, 0⟩
  lastUsedIdx := 0
  queueNum := 0

def firstPlace : KbdPlace := ⟨0x40200000, 0xC0180000, by decide, by decide⟩

/-- The device completes the press of a key, and the handler comes to handle it. -/
theorem kbdRun_protocol_press : ∃ s ops, Run (KbdStep firstPlace) (kbdStart firstPlace 64 blankKbd)
    ops s ∧ s.kbd.keys.typed = [97] ∧ KbdProtocol firstPlace s := by
  have hrun : Run (KbdStep firstPlace) (kbdStart firstPlace 64 blankKbd)
      [.take, .fill 0 ⟨evKey, 30, 1⟩, .use 0 inputEventSize, .publish, .driver, .driver, .driver,
        .driver] _ :=
    .cons ⟨by decide, rfl⟩ <| .cons ⟨by decide, rfl⟩ <| .cons ⟨by decide, rfl⟩ <|
      .cons ⟨by decide, rfl⟩ <| .cons ⟨trivial, rfl⟩ <| .cons ⟨trivial, rfl⟩ <|
      .cons ⟨trivial, rfl⟩ <| .cons ⟨trivial, rfl⟩ (.nil _)
  exact ⟨_, _, hrun, by decide +kernel, (kbdRun_protocol (by decide) hrun).1⟩

end Leg

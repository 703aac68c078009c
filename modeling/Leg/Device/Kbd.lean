import Leg.Device.Virtio
import Leg.Lib.Runs
import Leg.Memory.Layout

/-! The keyboard driver of `kbd.c` and the device at the other end of its virtqueue. The handler
takes one access to the queue at a time, and the device acts between any two of them. -/
namespace Leg

/-- `virtio_input_event_t`. -/
structure InputEvent where
  type : ℕ
  code : ℕ
  value : ℕ
  deriving DecidableEq

/-- `sizeof(virtio_input_event_t)`. -/
def inputEventSize : ℕ := 8

def evKey : ℕ := 1
def keyLeftshift : ℕ := 42
def keyRightshift : ℕ := 54

/-- `keymap_lower`, in the rows of the source. -/
def keymapLower : List ℕ := [
  0, 0,
  49, 50, 51, 52, 53,
  54, 55, 56, 57, 48,
  45, 61, 8, 9,
  113, 119, 101, 114, 116,
  121, 117, 105, 111, 112,
  91, 93, 10, 0,
  97, 115, 100, 102, 103,
  104, 106, 107, 108,
  59, 39, 96, 0, 92,
  122, 120, 99, 118, 98,
  110, 109, 44, 46, 47,
  0, 42, 0, 32]

/-- `keymap_upper`, in the rows of the source. -/
def keymapUpper : List ℕ := [
  0, 0, 33, 64, 35, 36, 37, 94, 38, 42, 40, 41, 95, 43, 8,
  9, 81, 87, 69, 82, 84, 89, 85, 73, 79, 80, 123, 125, 10, 0,
  65, 83, 68, 70, 71, 72, 74, 75, 76, 58, 34, 126, 0, 124, 90,
  88, 67, 86, 66, 78, 77, 60, 62, 63, 0, 42, 0, 32]

/-- `g_shift`, and the characters that `tty_input` was given. -/
structure Keys where
  shift : Bool
  typed : List ℕ

def handleKbdEvent (keys : Keys) (ev : InputEvent) : Keys :=
  if ev.type = evKey then
    if ev.code = keyLeftshift ∨ ev.code = keyRightshift then { keys with shift := ev.value ≠ 0 }
    else if (ev.value = 1 ∨ ev.value = 2) ∧ ev.code < 58 then
      let c := (if keys.shift then keymapUpper else keymapLower).getD ev.code 0
      if c ≠ 0 then { keys with typed := keys.typed ++ [c] } else keys
    else keys
  else keys

/-- The statics of `kbd.c` that the queue lives in. `events` is indexed by physical address;
`queueNum` is the register of the device. -/
structure Kbd where
  keys : Keys
  desc : ℕ → VqDesc
  availRing : ℕ → ℕ
  availIdx : ℕ
  usedRing : ℕ → VqUsedElem
  usedIdx : ℕ
  events : ℕ → InputEvent
  lastUsedIdx : ℕ
  queueNum : ℕ

/-- Where the kernel and its array `g_events` lie. -/
structure KbdPlace where
  kernelPhysBase : ℕ
  eventsVa : ℕ
  low : kernelVa ≤ eventsVa
  high : eventsVa + queueSize * inputEventSize ≤ 4294967296

namespace KbdPlace
variable (c : KbdPlace)

/-- `virt_to_phys(&g_events[i])`. -/
def eventPhys (i : ℕ) : ℕ := virtToPhys c.kernelPhysBase (u32 (c.eventsVa + i * inputEventSize))

/-- The descriptor of the `i`-th event buffer. -/
def eventDesc (i : ℕ) : VqDesc := ⟨c.eventPhys i, inputEventSize, vdescFWrite, 0⟩

/-- `setup_eventq`, where the device offers `qmax` entries. -/
def setupEventq (qmax : ℕ) (k : Kbd) : Kbd :=
  { k with
    desc := fun i => if i < queueSize then c.eventDesc i else k.desc i
    availRing := fun i => if i < queueSize then u16 i else k.availRing i
    availIdx := queueSize
    usedIdx := 0
    queueNum := if qmax < queueSize then qmax else queueSize }

theorem eventPhys_eq {i : ℕ} (hi : i < queueSize) : c.eventPhys i =
    u32 (c.kernelPhysBase + (c.eventsVa + i * inputEventSize - kernelVa)) := by
  have hlow := c.low
  have hhigh := c.high
  have hva : u32 (c.eventsVa + i * inputEventSize) = c.eventsVa + i * inputEventSize :=
    u32_of_lt (by unfold queueSize inputEventSize at *; omega)
  unfold eventPhys virtToPhys
  rw [hva, if_pos (by omega)]

theorem eventPhys_inj {i j : ℕ} (hi : i < queueSize) (hj : j < queueSize)
    (h : c.eventPhys i = c.eventPhys j) : i = j := by
  have hlow := c.low
  rw [c.eventPhys_eq hi, c.eventPhys_eq hj] at h
  unfold u32 queueSize inputEventSize at *
  omega

end KbdPlace

/-- Where `kbd_irq_handler` stands: outside, at the loop's test, and before each access of the
loop's body. -/
inductive KbdPc where
  | idle
  | test
  | readId
  | handle (descId : ℕ)
  | writeRing (descId : ℕ)
  | bumpAvail (descId : ℕ)
  | bumpLast
  deriving DecidableEq

/-- The driver and the device. The device keeps its own index into the available ring, the
descriptors it took from there, and those it wrote used entries for but has not published yet;
`completed` and `handled` record what it published and what `handle_kbd_event` was given. -/
structure KbdSystem where
  kbd : Kbd
  pc : KbdPc
  devIdx : ℕ
  pending : List ℕ
  staged : List ℕ
  completed : List (ℕ × InputEvent)
  handled : List InputEvent

/-- One access of the handler, or a step of the device. -/
inductive KbdOp where
  | driver
  | take
  | fill (id : ℕ) (ev : InputEvent)
  | use (id len : ℕ)
  | publish

namespace KbdSystem
variable (c : KbdPlace) (s : KbdSystem)

/-- The next access of `kbd_irq_handler`. -/
def driver : KbdSystem :=
  match s.pc with
  | .idle => { s with pc := .test }
  | .test => { s with pc := if s.kbd.lastUsedIdx ≠ s.kbd.usedIdx then .readId else .idle }
  | .readId => { s with pc := .handle (s.kbd.usedRing (s.kbd.lastUsedIdx % queueSize)).id }
  | .handle id =>
    let ev := s.kbd.events (c.eventPhys id)
    { s with
      kbd := { s.kbd with keys := handleKbdEvent s.kbd.keys ev }
      pc := .writeRing id
      handled := s.handled ++ [ev] }
  | .writeRing id =>
    let ring := Function.update s.kbd.availRing (s.kbd.availIdx % queueSize) (u16 id)
    { s with kbd := { s.kbd with availRing := ring }, pc := .bumpAvail id }
  | .bumpAvail _ =>
    { s with kbd := { s.kbd with availIdx := u16 (s.kbd.availIdx + 1) }, pc := .bumpLast }
  | .bumpLast =>
    { s with kbd := { s.kbd with lastUsedIdx := u16 (s.kbd.lastUsedIdx + 1) }, pc := .test }

/-- The device takes the next descriptor from the available ring. -/
def take : KbdSystem :=
  { s with
    devIdx := u16 (s.devIdx + 1)
    pending := s.kbd.availRing (s.devIdx % s.kbd.queueNum) :: s.pending }

/-- The device writes an event to the buffer of a descriptor. -/
def fill (id : ℕ) (ev : InputEvent) : KbdSystem :=
  { s with kbd := { s.kbd with events := Function.update s.kbd.events (s.kbd.desc id).addr ev } }

/-- The device writes a used entry, behind those it wrote before. -/
def use (id len : ℕ) : KbdSystem :=
  let cell := u16 (s.kbd.usedIdx + s.staged.length) % s.kbd.queueNum
  { s with
    kbd := { s.kbd with usedRing := Function.update s.kbd.usedRing cell ⟨id, len⟩ }
    pending := s.pending.erase id
    staged := s.staged ++ [id] }

/-- The device advances the index of the used ring. -/
def publish : KbdSystem :=
  match s.staged with
  | [] => s
  | id :: ids =>
    { s with
      kbd := { s.kbd with usedIdx := u16 (s.kbd.usedIdx + 1) }
      staged := ids
      completed := s.completed ++ [(id, s.kbd.events (s.kbd.desc id).addr)] }

def next : KbdOp → KbdSystem
  | .driver => s.driver c
  | .take => s.take
  | .fill id ev => s.fill id ev
  | .use id len => s.use id len
  | .publish => s.publish

/-- What a device that follows virtio does: it takes what is available, writes to the buffers and
uses the descriptors that it took and has not used yet, and publishes used entries it wrote. -/
def Admits : KbdOp → Prop
  | .driver => True
  | .take => s.devIdx ≠ s.kbd.availIdx
  | .fill id _ => id ∈ s.pending ∧ inputEventSize ≤ (s.kbd.desc id).len ∧
      (s.kbd.desc id).flags &&& vdescFWrite ≠ 0
  | .use id _ => id ∈ s.pending
  | .publish => s.staged ≠ []

instance (op : KbdOp) : Decidable (s.Admits op) :=
  match op with
  | .driver => inferInstanceAs (Decidable True)
  | .take => inferInstanceAs (Decidable (s.devIdx ≠ s.kbd.availIdx))
  | .fill id _ => inferInstanceAs (Decidable (id ∈ s.pending ∧ _ ∧ _))
  | .use id _ => inferInstanceAs (Decidable (id ∈ s.pending))
  | .publish => inferInstanceAs (Decidable (s.staged ≠ []))

end KbdSystem

def KbdStep (c : KbdPlace) (s : KbdSystem) (op : KbdOp) (t : KbdSystem) : Prop :=
  s.Admits op ∧ t = s.next c op

/-- The system when `kbd_init` notifies the device. -/
def kbdStart (c : KbdPlace) (qmax : ℕ) (k : Kbd) : KbdSystem where
  kbd := c.setupEventq qmax { k with keys := ⟨false, []⟩, lastUsedIdx := 0 }
  pc := .idle
  devIdx := 0
  pending := []
  staged := []
  completed := []
  handled := []

end Leg

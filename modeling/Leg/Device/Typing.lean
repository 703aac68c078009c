import Leg.Device.KbdQueue

/-! What is typed at the keyboard against what `handle_kbd_event` makes of it. The driver keeps one
flag for two shift keys, so that letting go of one of them undoes the other. -/
namespace Leg
open Runs

/-- What happens at the keyboard: a key goes down, repeats or comes up, or something else. -/
inductive KeyAction where
  | press (code : ℕ)
  | hold (code : ℕ)
  | release (code : ℕ)
  | other (ev : InputEvent)

namespace KeyAction

def event : KeyAction → InputEvent
  | press code => ⟨evKey, code, 1⟩
  | hold code => ⟨evKey, code, 2⟩
  | release code => ⟨evKey, code, 0⟩
  | other ev => ev

/-- The key that strikes. -/
def struck : KeyAction → Option ℕ
  | press code | hold code => some code
  | release _ | other _ => none

end KeyAction

/-- The code of a shift key. -/
def IsShift (code : ℕ) : Prop := code = keyLeftshift ∨ code = keyRightshift

instance (code : ℕ) : Decidable (IsShift code) := inferInstanceAs (Decidable (_ ∨ _))

/-- The character of a key, if it has one. -/
def keyChar (shift : Bool) (code : ℕ) : Option ℕ :=
  let c := (if shift then keymapUpper else keymapLower).getD code 0
  if c = 0 then none else some c

/-- The keyboard: the keys that are down, the text that is meant, whether the last thing that
happened to a shift key is that it came up, and what the driver has made of it. -/
structure Typing where
  down : List ℕ
  text : List ℕ
  letGo : Bool
  keys : Keys

namespace Typing
variable (t : Typing)

/-- A shift key is down. -/
def shifted : Bool := t.down.any fun code => decide (IsShift code)

def start : Typing := ⟨[], [], false, ⟨false, []⟩⟩

/-- The keys that are down afterwards. -/
def downAfter : KeyAction → List ℕ
  | .press code => code :: t.down
  | .hold _ | .other _ => t.down
  | .release code => t.down.erase code

/-- Whether a shift key was the last to come up. -/
def letGoAfter : KeyAction → Bool
  | .press code | .hold code => if IsShift code then false else t.letGo
  | .release code => if IsShift code then true else t.letGo
  | .other _ => t.letGo

def next (a : KeyAction) : Typing where
  down := t.downAfter a
  text := t.text ++ (a.struck.bind (keyChar t.shifted)).toList
  letGo := t.letGoAfter a
  keys := handleKbdEvent t.keys a.event

/-- A key goes down when it is up, and repeats or comes up when it is down. -/
def Admits : KeyAction → Prop
  | .press code => code ∉ t.down
  | .hold code | .release code => code ∈ t.down
  | .other ev => ev.type ≠ evKey

instance (a : KeyAction) : Decidable (t.Admits a) :=
  match a with
  | .press code => inferInstanceAs (Decidable (code ∉ t.down))
  | .hold code => inferInstanceAs (Decidable (code ∈ t.down))
  | .release code => inferInstanceAs (Decidable (code ∈ t.down))
  | .other ev => inferInstanceAs (Decidable (ev.type ≠ evKey))

def Step (t : Typing) (a : KeyAction) (u : Typing) : Prop := t.Admits a ∧ u = t.next a

/-- A key that has two characters does not strike while one shift key is down of which the other
has come up last. -/
def Clear (t : Typing) (a : KeyAction) : Prop :=
  ∀ code, a.struck = some code → keyChar false code ≠ keyChar true code →
    ¬(t.shifted = true ∧ t.letGo = true)

/-- The driver's flag stands for the shift keys unless one of them came up last, and for each
character that is meant the driver has typed one, if not always the same. -/
structure Ok : Prop where
  flag : t.keys.shift = (t.shifted && !t.letGo)
  length : t.keys.typed.length = t.text.length

end Typing

theorem keymap_zero :
    ∀ code < 58, keymapLower.getD code 0 = 0 ↔ keymapUpper.getD code 0 = 0 := by
  decide +kernel

theorem keymap_end {code : ℕ} (h : ¬code < 58) (shift : Bool) :
    (if shift then keymapUpper else keymapLower).getD code 0 = 0 := by
  cases shift
  · exact List.getD_eq_default _ _ (Nat.le_of_not_lt h)
  · exact List.getD_eq_default _ _ (Nat.le_of_not_lt h)

theorem keyChar_shift {code : ℕ} (h : IsShift code) (shift : Bool) : keyChar shift code = none := by
  rcases h with rfl | rfl <;> cases shift <;> rfl

theorem keyChar_none (shift : Bool) (code : ℕ) :
    keyChar shift code = none ↔ keyChar false code = none := by
  cases shift with
  | false => exact Iff.rfl
  | true =>
    have hzero : keymapUpper.getD code 0 = 0 ↔ keymapLower.getD code 0 = 0 := by
      by_cases hcode : code < 58
      · exact (keymap_zero code hcode).symm
      · exact iff_of_true (keymap_end hcode true) (keymap_end hcode false)
    simpa [keyChar] using hzero

theorem keyChar_length (shift shift' : Bool) (code : ℕ) :
    (keyChar shift code).toList.length = (keyChar shift' code).toList.length := by
  have hnone := (keyChar_none shift code).trans (keyChar_none shift' code).symm
  cases h : keyChar shift code with
  | none => rw [hnone.mp h]
  | some c =>
    cases h' : keyChar shift' code with
    | none => exact absurd (hnone.mpr h') (by simp [h])
    | some c' => rfl

/-- What the driver makes of a key that strikes. -/
theorem handle_strike (k : Keys) {code value : ℕ} (h : value = 1 ∨ value = 2) :
    handleKbdEvent k ⟨evKey, code, value⟩ =
      ⟨if IsShift code then true else k.shift, k.typed ++ (keyChar k.shift code).toList⟩ := by
  have hdown : decide (value ≠ 0) = true := decide_eq_true (by omega)
  unfold handleKbdEvent
  rw [if_pos rfl]
  dsimp only
  by_cases hshift : IsShift code
  · rw [if_pos hshift, if_pos (show code = keyLeftshift ∨ code = keyRightshift from hshift), hdown,
      keyChar_shift hshift, Option.toList_none, List.append_nil]
  · rw [if_neg hshift, if_neg (show ¬(code = keyLeftshift ∨ code = keyRightshift) from hshift)]
    by_cases hcode : code < 58
    · rw [if_pos ⟨h, hcode⟩]
      unfold keyChar
      dsimp only
      generalize (if k.shift then keymapUpper else keymapLower).getD code 0 = c
      by_cases hc : c = 0
      · rw [if_neg (not_not.mpr hc), if_pos hc, Option.toList_none, List.append_nil]
      · rw [if_pos hc, if_neg hc, Option.toList_some]
    · have hnone : keyChar k.shift code = none := if_pos (keymap_end hcode k.shift)
      rw [if_neg fun hin => hcode hin.2, hnone, Option.toList_none, List.append_nil]

theorem handle_release (k : Keys) (code : ℕ) : handleKbdEvent k ⟨evKey, code, 0⟩ =
    ⟨if IsShift code then false else k.shift, k.typed⟩ := by
  unfold handleKbdEvent
  rw [if_pos rfl]
  dsimp only
  by_cases hshift : IsShift code
  · rw [if_pos hshift, if_pos (show code = keyLeftshift ∨ code = keyRightshift from hshift)]
    rfl
  · rw [if_neg hshift, if_neg (show ¬(code = keyLeftshift ∨ code = keyRightshift) from hshift),
      if_neg]
    rintro ⟨hvalue, -⟩
    omega

theorem handle_other (k : Keys) {ev : InputEvent} (h : ev.type ≠ evKey) :
    handleKbdEvent k ev = k := if_neg h

namespace Typing
variable {t u : Typing} {a : KeyAction}

/-- What a key that strikes does. -/
theorem next_struck {code : ℕ} (h : a.struck = some code) :
    (t.next a).text = t.text ++ (keyChar t.shifted code).toList ∧
      (t.next a).keys = ⟨if IsShift code then true else t.keys.shift,
        t.keys.typed ++ (keyChar t.keys.shift code).toList⟩ ∧
      (t.next a).letGo = if IsShift code then false else t.letGo := by
  unfold next
  rw [h]
  refine ⟨rfl, ?_, ?_⟩
  · cases a with
    | press c =>
      obtain rfl := Option.some.inj h
      exact handle_strike t.keys (.inl rfl)
    | hold c =>
      obtain rfl := Option.some.inj h
      exact handle_strike t.keys (.inr rfl)
    | release c => cases h
    | other ev => cases h
  · cases a with
    | press c | hold c =>
      obtain rfl := Option.some.inj h
      rfl
    | release c => cases h
    | other ev => cases h

theorem next_silent (h : a.struck = none) (ha : t.Admits a) :
    (t.next a).text = t.text ∧ (t.next a).keys.typed = t.keys.typed := by
  refine ⟨?_, ?_⟩
  · unfold next
    rw [h]
    exact List.append_nil _
  · cases a with
    | press c => cases h
    | hold c => cases h
    | release c =>
      change (handleKbdEvent t.keys ⟨evKey, c, 0⟩).typed = _
      rw [handle_release]
    | other ev =>
      change (handleKbdEvent t.keys ev).typed = _
      rw [handle_other t.keys ha]

theorem step_extends (hs : Step t a u) : ∃ x y, u.text = t.text ++ x ∧
    u.keys.typed = t.keys.typed ++ y ∧ x.length = y.length := by
  obtain ⟨ha, rfl⟩ := hs
  cases h : a.struck with
  | none =>
    obtain ⟨htext, htyped⟩ := next_silent h ha
    exact ⟨[], [], by rw [htext, List.append_nil], by rw [htyped, List.append_nil], rfl⟩
  | some code =>
    obtain ⟨htext, hkeys, -⟩ := @next_struck t a code h
    exact ⟨_, _, htext, congrArg Keys.typed hkeys, keyChar_length ..⟩

theorem shifted_of_struck {code : ℕ} (h : a.struck = some code) (hs : IsShift code)
    (ha : t.Admits a) : (t.next a).shifted = true := by
  refine List.any_eq_true.mpr ⟨code, ?_, decide_eq_true hs⟩
  cases a with
  | press c =>
    obtain rfl := Option.some.inj h
    exact List.mem_cons_self ..
  | hold c =>
    obtain rfl := Option.some.inj h
    exact ha
  | release c => cases h
  | other ev => cases h

/-- No other key changes whether a shift key is down. -/
theorem shifted_next (h : ∀ code, a = .press code ∨ a = .release code → ¬IsShift code) :
    (t.next a).shifted = t.shifted := by
  cases a with
  | press c =>
    have hc := h c (.inl rfl)
    change (c :: t.down).any _ = t.down.any _
    rw [List.any_cons, decide_eq_false hc, Bool.false_or]
  | hold c => rfl
  | other ev => rfl
  | release c =>
    have hc := h c (.inr rfl)
    rw [Bool.eq_iff_iff]
    change (t.down.erase c).any _ = true ↔ t.down.any _ = true
    rw [List.any_eq_true, List.any_eq_true]
    constructor
    · rintro ⟨d, hd, hshift⟩
      exact ⟨d, List.mem_of_mem_erase hd, hshift⟩
    · rintro ⟨d, hd, hshift⟩
      have hne : d ≠ c := by
        rintro rfl
        exact hc (of_decide_eq_true hshift)
      exact ⟨d, (List.mem_erase_of_ne hne).mpr hd, hshift⟩

theorem step_ok (h : t.Ok) (hs : Step t a u) : u.Ok := by
  obtain ⟨x, y, htext, htyped, hlen⟩ := step_extends hs
  refine ⟨?_, by rw [htext, htyped, List.length_append, List.length_append, h.length, hlen]⟩
  obtain ⟨ha, rfl⟩ := hs
  cases hstruck : a.struck with
  | some code =>
    obtain ⟨-, hkeys, hletGo⟩ := @next_struck t a code hstruck
    rw [hkeys, hletGo]
    by_cases hshift : IsShift code
    · rw [shifted_of_struck hstruck hshift ha]
      simp only [if_pos hshift, Bool.not_false, Bool.and_self]
    · rw [shifted_next, h.flag]
      · simp only [if_neg hshift]
      · rintro c (rfl | rfl)
        · obtain rfl := Option.some.inj hstruck
          exact hshift
        · cases hstruck
  | none =>
    cases a with
    | press c => cases hstruck
    | hold c => cases hstruck
    | other ev =>
      change (handleKbdEvent t.keys ev).shift = _
      rw [handle_other t.keys ha]
      exact h.flag
    | release c =>
      change (handleKbdEvent t.keys ⟨evKey, c, 0⟩).shift =
        (_ && !if IsShift c then true else t.letGo)
      rw [handle_release]
      by_cases hshift : IsShift c
      · simp only [if_pos hshift, Bool.not_true, Bool.and_false]
      · rw [shifted_next, h.flag]
        · simp only [if_neg hshift]
        · rintro d (hd | hd)
          · cases hd
          · cases hd
            exact hshift

theorem step_right_iff (h : t.Ok) (hright : t.keys.typed = t.text) (hs : Step t a u) :
    u.keys.typed = u.text ↔ t.Clear a := by
  obtain ⟨ha, rfl⟩ := hs
  unfold Clear
  cases hstruck : a.struck with
  | none =>
    obtain ⟨htext, htyped⟩ := next_silent hstruck ha
    rw [htext, htyped]
    exact iff_of_true hright fun code hcode => absurd hcode (by simp)
  | some code =>
    obtain ⟨htext, hkeys, -⟩ := @next_struck t a code hstruck
    rw [htext, hkeys]
    dsimp only
    rw [hright, List.append_cancel_left_eq, h.flag]
    have hlists : (keyChar false code).toList = (keyChar true code).toList ↔
        keyChar false code = keyChar true code :=
      ⟨fun heq => by simpa using congrArg List.head? heq, fun heq => by rw [heq]⟩
    cases t.shifted <;> cases t.letGo <;> simp [hlists]

theorem run_extends {acts : List KeyAction} (hr : Run Step t acts u) : ∃ x y,
    u.text = t.text ++ x ∧ u.keys.typed = t.keys.typed ++ y := by
  induction hr with
  | nil => exact ⟨[], [], (List.append_nil _).symm, (List.append_nil _).symm⟩
  | cons hs _ ih =>
    obtain ⟨x, y, htext, htyped, -⟩ := step_extends hs
    obtain ⟨x', y', htext', htyped'⟩ := ih
    exact ⟨x ++ x', y ++ y', by rw [htext', htext, List.append_assoc],
      by rw [htyped', htyped, List.append_assoc]⟩

/-- The driver types the text that is meant exactly if every action is clear. -/
theorem run_right_iff {acts : List KeyAction} (hr : Run Step t acts u) (h : t.Ok)
    (hright : t.keys.typed = t.text) :
    u.keys.typed = u.text ↔ Run (Meeting Clear Step) t acts u := by
  induction hr with
  | nil t => exact iff_of_true hright (.nil t)
  | @cons t v u a as hs hrest ih =>
    have hok := step_ok h hs
    by_cases hclear : t.Clear a
    · rw [ih hok ((step_right_iff h hright hs).mpr hclear)]
      refine ⟨fun hmeet => .cons ⟨hclear, hs⟩ hmeet, fun hmeet => ?_⟩
      cases hmeet with
      | cons hs' hmeet =>
        obtain ⟨-, -, rfl⟩ := hs'
        obtain ⟨-, rfl⟩ := hs
        exact hmeet
    · refine iff_of_false (fun hsame => ?_) fun hmeet => ?_
      · -- the texts differ already, and only grow
        obtain ⟨x, y, htext, htyped⟩ := run_extends hrest
        rw [htext, htyped] at hsame
        exact hclear ((step_right_iff h hright hs).mp (List.append_inj hsame hok.length).1)
      · cases hmeet with
        | cons hs' _ => exact hclear hs'.1

theorem start_ok : start.Ok := ⟨rfl, rfl⟩

theorem run_next {acts : List KeyAction} (hr : Run Step t acts u) : u = acts.foldl next t := by
  induction hr with
  | nil => rfl
  | cons hs _ ih => rw [ih, List.foldl_cons, hs.2]

theorem foldl_keys (t : Typing) (acts : List KeyAction) :
    (acts.foldl next t).keys = (acts.map KeyAction.event).foldl handleKbdEvent t.keys := by
  induction acts generalizing t with
  | nil => rfl
  | cons a acts ih => exact ih (t.next a)

end Typing

section Queue
variable {c : KbdPlace} {s : KbdSystem}

theorem kbdRun_keys {qmax : ℕ} {k : Kbd} {ops : List KbdOp}
    (hr : Run (KbdStep c) (kbdStart c qmax k) ops s) :
    s.kbd.keys = s.handled.foldl handleKbdEvent ⟨false, []⟩ := by
  refine hr.preserves (I := fun s => s.kbd.keys = s.handled.foldl handleKbdEvent ⟨false, []⟩) ?_ rfl
  rintro s op _ h ⟨-, rfl⟩
  cases op with
  | take | fill id ev | use id len => exact h
  | publish =>
    change s.publish.kbd.keys = s.publish.handled.foldl _ _
    unfold KbdSystem.publish
    split <;> exact h
  | driver =>
    change (s.driver c).kbd.keys = (s.driver c).handled.foldl _ _
    unfold KbdSystem.driver
    split
    case h_4 =>
      dsimp only
      rw [List.foldl_append, ← h]
      rfl
    all_goals exact h

end Queue

/-- Whatever the order of the handler's and the device's steps, after the events of a keyboard
that the device has completed the driver has typed the text meant by those it has handled, exactly
if no key with two characters has struck while one shift key was down of which the other had come
up last. -/
theorem kbdRun_types_iff {c : KbdPlace} {qmax : ℕ} {k : Kbd} {ops : List KbdOp} {s : KbdSystem}
    (hq : queueSize ≤ qmax) (hr : Run (KbdStep c) (kbdStart c qmax k) ops s)
    {acts : List KeyAction} {t : Typing} (ht : Run Typing.Step .start acts t)
    (hev : s.completed.map Prod.snd = acts.map KeyAction.event) :
    ∃ u, Run Typing.Step .start (acts.take s.handled.length) u ∧
      (s.kbd.keys.typed = u.text ↔
        Run (Meeting Typing.Clear Typing.Step) .start (acts.take s.handled.length) u) := by
  rw [← List.take_append_drop s.handled.length acts] at ht
  obtain ⟨u, hu, -⟩ := ht.split
  refine ⟨u, hu, ?_⟩
  rw [← Typing.run_right_iff hu Typing.start_ok rfl]
  have hkeys : s.kbd.keys = u.keys := by
    rw [Typing.run_next hu, Typing.foldl_keys, List.map_take, ← hev,
      ← (kbdRun_protocol hq hr).1.inOrder]
    exact kbdRun_keys hr
  rw [hkeys]

/-- Both shift keys go down, the left one comes up, and `a` is pressed. -/
def bothShifts : List KeyAction :=
  [.press keyLeftshift, .press keyRightshift, .release keyLeftshift, .press 30]

/-- The device completes an event with the `i`-th descriptor. -/
def completes (i : ℕ) (a : KeyAction) : List KbdOp :=
  [.take, .fill i a.event, .use i inputEventSize, .publish]

def bothShiftsOps : List KbdOp :=
  (bothShifts.zipIdx.flatMap fun x => completes x.2 x.1) ++ List.replicate 25 .driver

/-- The driver types a small letter where a capital one is meant. -/
theorem bothShifts_typed : ∃ s u, Run (KbdStep firstPlace) (kbdStart firstPlace 64 blankKbd)
      bothShiftsOps s ∧ Run Typing.Step .start bothShifts u ∧ s.kbd.keys.typed = [97] ∧
    u.text = [65] ∧ ¬Run (Meeting Typing.Clear Typing.Step) .start bothShifts u := by
  have hany : (execute (fun s op => decide (s.Admits op)) (fun s op => some (s.next firstPlace op))
      (kbdStart firstPlace 64 blankKbd) bothShiftsOps).any (fun s =>
        decide (s.kbd.keys.typed = [97] ∧ s.handled.length = 4 ∧
          s.completed.map Prod.snd = bothShifts.map KeyAction.event)) = true := by
    decide +kernel
  obtain ⟨s, hs, htest⟩ := (Option.any_eq_true _ _).mp hany
  obtain ⟨htyped, hlen, hev⟩ := of_decide_eq_true htest
  have hr : Run (KbdStep firstPlace) (kbdStart firstPlace 64 blankKbd) bothShiftsOps s :=
    Run.of_execute (fun _ _ _ hok hn => ⟨of_decide_eq_true hok, (Option.some.inj hn).symm⟩) hs
  have ht : Run Typing.Step .start bothShifts (bothShifts.foldl Typing.next .start) :=
    .cons ⟨by decide, rfl⟩ <| .cons ⟨by decide, rfl⟩ <| .cons ⟨by decide, rfl⟩ <|
      .cons ⟨by decide, rfl⟩ (.nil _)
  obtain ⟨u, hu, hiff⟩ := kbdRun_types_iff (by decide) hr ht hev
  rw [hlen] at hu hiff
  have htext : u.text = [65] := by
    rw [Typing.run_next hu]
    decide +kernel
  refine ⟨s, u, hr, hu, htyped, htext, fun hmeet => ?_⟩
  have hsame := hiff.mpr hmeet
  rw [htyped, htext] at hsame
  exact absurd hsame (by decide)

end Leg

import Leg.Lib.RingBuffer
import Leg.Lib.Runs
import Leg.Word

/-! The line buffer of `tty.c`: `tty_input` fills it from the interrupt handlers, three readers
empty it. Characters are byte values. -/
namespace Leg

def lineBufSize : ℕ := 256

def charBackspace : ℕ := 8
def charNewline : ℕ := 10
def charReturn : ℕ := 13
def charSpace : ℕ := 32
def charDelete : ℕ := 127

/-- The globals of `tty.c`. `lineBuf` reads at and behind `LINE_BUF_SIZE` what the memory behind
the array holds; `screen` is what `tty_putchar` was given. -/
structure Tty where
  lineBuf : ℕ → ℕ
  lineLen : ℕ
  lineReady : Bool
  lineStart : ℕ
  echoChars : Bool
  screen : List ℕ

namespace Tty

def putchar (t : Tty) (c : ℕ) : Tty := { t with screen := t.screen ++ [c] }

/-- `tty_input` after its first two tests. -/
def store (t : Tty) (c : ℕ) : Tty :=
  let t := if t.echoChars then t.putchar c else t
  let t := if t.lineLen < lineBufSize - 1 then
    { t with
      lineBuf := Function.update t.lineBuf (u32 (t.lineStart + t.lineLen) % lineBufSize) c
      lineLen := u32 (t.lineLen + 1) }
    else t
  if c = charNewline then { t with lineReady := true } else t

/-- `tty_input`. -/
def input (t : Tty) (c : ℕ) : Tty :=
  let c := if c = charReturn then charNewline else c
  if c = charBackspace ∨ c = charDelete then
    if t.lineLen > 0 then
      (({ t with lineLen := t.lineLen - 1 }.putchar charBackspace).putchar charSpace).putchar
        charBackspace
    else t
  else t.store c

/-- `tty_getchar` once a character is pending; also the index it reads. -/
def getchar (t : Tty) : Option (Tty × ℕ × ℕ) :=
  if t.lineLen = 0 then none
  else some ({ t with lineStart := u32 (t.lineStart + 1), lineLen := t.lineLen - 1 },
    t.lineBuf t.lineStart, t.lineStart)

/-- `tty_getchar_nb`, with the index it reads, if it reads one. -/
def getcharNb (t : Tty) : Tty × ℕ × Option ℕ :=
  if t.lineLen = 0 then (t, 0, none)
  else ({ t with lineStart := u32 (t.lineStart + 1), lineLen := t.lineLen - 1 },
    t.lineBuf t.lineStart, some t.lineStart)

/-- `tty_readline` before its wait loop. -/
def readlineCall (t : Tty) : Tty := { t with echoChars := true }

/-- `tty_readline` after its wait loop, over the caller's memory from `buf` on: the length it
returns and what that memory then holds. -/
def readlineReturn (t : Tty) (buf : ℕ → ℕ) (max : ℕ) : Tty × ℕ × (ℕ → ℕ) :=
  if t.lineLen = 0 then ({ t with lineReady := false, echoChars := false }, 0, buf)
  else
    let n := if t.lineLen < wsub max 1 then t.lineLen - 1 else wsub max 1
    let copied := fun i =>
      if i < t.lineLen then t.lineBuf (u32 (t.lineStart + i) % lineBufSize) else buf i
    ({ t with
      lineStart := u32 (t.lineStart + t.lineLen) % lineBufSize
      lineLen := 0
      lineReady := false
      echoChars := false }, n, Function.update copied n 0)

section Input
variable (t : Tty) (c : ℕ)

@[simp] theorem putchar_lineBuf : (t.putchar c).lineBuf = t.lineBuf := rfl
@[simp] theorem putchar_lineLen : (t.putchar c).lineLen = t.lineLen := rfl
@[simp] theorem putchar_lineStart : (t.putchar c).lineStart = t.lineStart := rfl
@[simp] theorem putchar_lineReady : (t.putchar c).lineReady = t.lineReady := rfl
@[simp] theorem putchar_echoChars : (t.putchar c).echoChars = t.echoChars := rfl

theorem store_of_room (h : t.lineLen < lineBufSize - 1) :
    (t.store c).lineBuf =
      Function.update t.lineBuf (u32 (t.lineStart + t.lineLen) % lineBufSize) c ∧
    (t.store c).lineLen = t.lineLen + 1 ∧ (t.store c).lineStart = t.lineStart ∧
    (t.store c).lineReady = (t.lineReady || decide (c = charNewline)) ∧
    (t.store c).echoChars = t.echoChars := by
  have hu : u32 (t.lineLen + 1) = t.lineLen + 1 := u32_of_lt (by unfold lineBufSize at h; omega)
  unfold store
  cases he : t.echoChars <;> by_cases hc : c = charNewline <;> simp [h, hc, hu, he]

theorem store_of_full (h : ¬ t.lineLen < lineBufSize - 1) :
    (t.store c).lineBuf = t.lineBuf ∧ (t.store c).lineLen = t.lineLen ∧
    (t.store c).lineStart = t.lineStart := by
  unfold store
  cases he : t.echoChars <;> by_cases hc : c = charNewline <;> simp [h, hc]

/-- What `tty_input` stores. -/
def typed (c : ℕ) : ℕ := if c = charReturn then charNewline else c

/-- A backspace or DEL. -/
def Erases (c : ℕ) : Prop := c = charBackspace ∨ c = charDelete

instance (c : ℕ) : Decidable (Erases c) := inferInstanceAs (Decidable (_ ∨ _))

theorem input_of_erases {c : ℕ} (h : Erases c) :
    (t.input c).lineBuf = t.lineBuf ∧ (t.input c).lineLen = t.lineLen - 1 ∧
    (t.input c).lineStart = t.lineStart ∧ (t.input c).lineReady = t.lineReady ∧
    (t.input c).echoChars = t.echoChars := by
  have hr : c ≠ charReturn := by
    rcases h with rfl | rfl
    all_goals decide
  have he : c = charBackspace ∨ c = charDelete := h
  unfold input
  simp only [if_neg hr, if_pos he]
  split
  · simp
  next h0 =>
    have : t.lineLen = 0 := by omega
    simp [this]

theorem input_of_typed {c : ℕ} (h : ¬ Erases c) : t.input c = t.store (typed c) := by
  have he : ¬ (typed c = charBackspace ∨ typed c = charDelete) := by
    unfold typed
    split
    · decide
    · exact h
  unfold input
  exact if_neg he

end Input

end Tty

theorem u32_mod_lineBufSize (n : ℕ) : u32 n % lineBufSize = n % lineBufSize :=
  Nat.mod_mod_of_dvd n (by decide)

end Leg

import Leg.Lib.Logged
import Leg.Libc.Number

/-! The two interpreters of format strings: `vkprintf` of `logs.c`, which writes to the serial
port, and `printf` of `stdio.c`. Both log the bytes of the format that they read and the characters
that they write. The arrays that they format numbers into are memories of their own. -/
namespace Leg

/-- What an interpreter does: it reads a byte of the format, or writes a character. -/
inductive PrintEvent where
  | read (a : ℕ)
  | put (c : UInt8)
  deriving DecidableEq

/-- A character constant. -/
def chr (c : Char) : UInt8 := UInt8.ofNat c.toNat

/-- Write a character: `kputchar` and `putchar`. -/
def putchar (c : UInt8) : Logged PrintEvent Unit := Logged.emit (.put c)

/-- Write characters in turn. -/
def putAll (text : List UInt8) : Logged PrintEvent ℕ :=
  fun l => (l ++ text.map .put, .ok text.length)

/-- The loop of `kprint` and of `print` over the string at `p`: the number of characters. -/
def printString (m : Memory) (p : ℕ) : Logged PrintEvent ℕ := do
  let text ← Logged.look fun _ => Outcome.ofRead (cstr m.readable p)
  putAll text

/-- The string that has been formatted into an array, from its start on. -/
def printArray (array : Option (Memory × ℕ)) : Logged PrintEvent ℕ := do
  let (m, _) ← Logged.look fun _ => Outcome.ofRead array
  printString m 0

/-- A word as an `i32`. -/
def intOfWord (w : ℕ) : ℤ := Int.bmod w 4294967296

/-- `kprint_i32` and `print_i32`. -/
def printInt (w : ℕ) : Logged PrintEvent ℕ := printArray (itoa (fun _ => 0) 32 (intOfWord w) 0 10)

/-- `kprint_base` and `print_base`. -/
def printBase (w base : ℕ) : Logged PrintEvent ℕ := printArray (utoa (fun _ => 0) 32 w 0 base)

def hex8 (digit : ℕ) : ℕ := (getSymbol (digit / 16)).toNat ||| (getSymbol (digit % 16)).toNat <<< 8

/-- The array that `hex32be` fills. -/
def hex32be (value : ℕ) : List UInt8 :=
  Memory.le16 (hex8 (value >>> 24 &&& 0xff)) ++ Memory.le16 (hex8 (value >>> 16 &&& 0xff)) ++
    Memory.le16 (hex8 (value >>> 8 &&& 0xff)) ++ Memory.le16 (hex8 (value >>> 0 &&& 0xff)) ++ [0]

/-- `kprint_ptr` and `print_ptr`. -/
def printPtr (w : ℕ) : Logged PrintEvent ℕ :=
  printArray (some (fun a => (hex32be w).getD a 0, 0))

/-- The characters of `true` and of `false`. -/
def boolText (b : Bool) : List UInt8 :=
  if b then ascii ['t', 'r', 'u', 'e'] else ascii ['f', 'a', 'l', 's', 'e']

/-- The cases of the switch of `vkprintf` that take an argument, apart from where they go on. -/
def kConvert (m : Memory) (t : UInt8) (w : ℕ) : Option (Logged PrintEvent Unit) :=
  if t = chr 's' then some do
    let _ ← printString m w
  else if t = chr 'c' then some (putchar (UInt8.ofNat w))
  else if t = chr 'd' ∨ t = chr 'i' then some do
    let _ ← printInt w
  else if t = chr 'u' then some do
    let _ ← printBase w 10
  else if t = chr 'x' then some do
    let _ ← printBase w 16
  else if t = chr 'o' then some do
    let _ ← printBase w 8
  else if t = chr 'b' then some do
    let _ ← printBase w 2
  else if t = chr 't' then some do
    let _ ← putAll (boolText (decide (w ≠ 0)))
  else if t = chr 'p' then some do
    let _ ← printPtr w
  else none

/-- A round of the loop of `vkprintf`: the place in the format and the number of the next argument
for the next round, or nothing at the end. The arguments are words. -/
def vkprintfRound (m : Memory) (args : ℕ → ℕ) (fmt i : ℕ) :
    Logged PrintEvent (Option (ℕ × ℕ)) := do
  Logged.emit (.read fmt)
  let c := m fmt
  let fmt := u32 (fmt + 1)
  if c = 0 then pure none
  else if c ≠ chr '%' then do
    putchar c
    pure (some (fmt, i))
  else do
    Logged.emit (.read fmt)
    let t := m fmt
    let next := u32 (fmt + 1)
    if t = chr '%' then do
      putchar (chr '%')
      pure (some (next, i))
    else
      match kConvert m t (u32 (args i)) with
      | some convert => do
        convert
        pure (some (next, i + 1))
      | none => do
        let _ ← putAll (ascii ['?', '%'])
        -- `*(fmt - 1)` is the byte that the switch has read
        Logged.emit (.read fmt)
        putchar (m fmt)
        pure (some (next, i))

/-- `vkprintf`, from a place in the format on. -/
def vkprintf (m : Memory) (args : ℕ → ℕ) : (fuel fmt i : ℕ) → Logged PrintEvent Unit
  | 0, _, _ => Logged.look fun _ => .outOfSteps
  | fuel + 1, fmt, i => do
    match ← vkprintfRound m args fmt i with
    | none => pure ()
    | some (fmt, i) => vkprintf m args fuel fmt i

/-- The cases of the switch of `printf` that take an argument and write it: the number of
characters. -/
def convert (m : Memory) (t : UInt8) (w : ℕ) : Option (Logged PrintEvent ℕ) :=
  if t = chr 's' then some (printString m w)
  else if t = chr 'c' then some do
    putchar (UInt8.ofNat w)
    pure 1
  else if t = chr 'd' ∨ t = chr 'i' then some (printInt w)
  else if t = chr 'u' then some (printBase w 10)
  else if t = chr 'x' then some (printBase w 16)
  else if t = chr 'o' then some (printBase w 8)
  else if t = chr 'b' then some (printBase w 2)
  else if t = chr 't' then some (putAll (boolText (decide (w ≠ 0))))
  else if t = chr 'p' then some (printPtr w)
  else none

/-- `*ptr = n` of a 32-bit word. -/
def storeCount (m : Memory) (ptr n : ℕ) : Memory := fun a =>
  if a < 4294967296 ∧ wsub a ptr < 4 then (Memory.le32 n).getD (wsub a ptr) 0 else m a

/-- What `printf` goes on with: its memory, the place in the format, the number of the next
argument, and the number of characters so far. -/
structure PrintState where
  mem : Memory
  fmt : ℕ
  next : ℕ
  count : ℕ

/-- A round of the loop of `printf`, or nothing where it returns. -/
def printfRound (args : ℕ → ℕ) (s : PrintState) : Logged PrintEvent (Option PrintState) := do
  Logged.emit (.read s.fmt)
  let c := s.mem s.fmt
  let fmt := u32 (s.fmt + 1)
  if c = 0 then pure none
  else if c ≠ chr '%' then do
    putchar c
    pure (some ⟨s.mem, fmt, s.next, u32 (s.count + 1)⟩)
  else do
    Logged.emit (.read fmt)
    let t := s.mem fmt
    let fmt := u32 (fmt + 1)
    let w := u32 (args s.next)
    if t = chr '%' then do
      putchar (chr '%')
      pure (some ⟨s.mem, fmt, s.next, u32 (s.count + 1)⟩)
    else
      match convert s.mem t w with
      | some convert => do
        let n ← convert
        pure (some ⟨s.mem, fmt, s.next + 1, u32 (s.count + n)⟩)
      | none =>
        if t = chr 'n' then
          pure (some ⟨storeCount s.mem w s.count, fmt, s.next + 1, s.count⟩)
        else do
          let _ ← putAll (ascii ['?', '%'])
          putchar t
          pure none

/-- `printf`, from a state of its loop on. -/
def printf (args : ℕ → ℕ) : (fuel : ℕ) → PrintState → Logged PrintEvent Unit
  | 0, _ => Logged.look fun _ => .outOfSteps
  | fuel + 1, s => do
    match ← printfRound args s with
    | none => pure ()
    | some s => printf args fuel s

end Leg

import Leg.Lib.Numerals
import Leg.Libc.CString

/-! `log` of `math.h` and the number formatting of `stdlib.c`, which puts the digits down from the
last one on. -/
namespace Leg
open Memory

/-- The loop of `log`. -/
def logLoop (base : ℕ) : (fuel value n : ℕ) → Option ℕ
  | 0, _, _ => none
  | fuel + 1, value, n =>
    if base ≤ value then logLoop base fuel (value / base) (u32 (n + 1)) else some n

def log (fuel value base : ℕ) : Option ℕ := logLoop base fuel value 0

/-- `get_symbol`, as a character. -/
def getSymbol (digit : ℕ) : UInt8 :=
  if digit < 10 then UInt8.ofNat (48 + digit) else UInt8.ofNat (97 + digit - 10)

/-- The loop of `utoa`: the memory behind it, and the number of digits. -/
def utoaLoop (buffer radix digitCount : ℕ) : (fuel : ℕ) → Memory → (value i : ℕ) →
    Option (Memory × ℕ)
  | 0, _, _, _ => none
  | fuel + 1, m, value, i =>
    let m' := Function.update m (u32 (buffer + wsub digitCount i)) (getSymbol (value % radix))
    if value / radix ≠ 0 then utoaLoop buffer radix digitCount fuel m' (value / radix) (u32 (i + 1))
    else some (m', u32 (i + 1))

/-- `utoa`: the memory behind it, and what it returns. -/
def utoa (m : Memory) (fuel value buffer radix : ℕ) : Option (Memory × ℕ) :=
  if value = 0 then
    some (Function.update (Function.update m buffer 48) (u32 (buffer + 1)) 0, buffer)
  else do
    let digitCount ← log fuel value radix
    let (m', i) ← utoaLoop buffer radix digitCount fuel m value 0
    return (Function.update m' (u32 (buffer + i)) 0, buffer)

/-- An `i32` as a `u32`. -/
def u32OfInt (value : ℤ) : ℕ := (value % 4294967296).toNat

/-- `itoa` of an `i32`, whose negation wraps. -/
def itoa (m : Memory) (fuel : ℕ) (value : ℤ) (buffer radix : ℕ) : Option (Memory × ℕ) :=
  if value < 0 then
    utoa (Function.update m buffer 45) fuel (u32OfInt (Int.bmod (-value) 4294967296))
      (u32 (buffer + 1)) radix
  else utoa m fuel (u32OfInt value) buffer radix

/-- The digits and the lower-case letters. -/
def symbols : List UInt8 := ascii
  ['0', '1', '2', '3', '4', '5', '6', '7', '8', '9', 'a', 'b', 'c', 'd', 'e', 'f', 'g', 'h', 'i',
    'j', 'k', 'l', 'm', 'n', 'o', 'p', 'q', 'r', 's', 't', 'u', 'v', 'w', 'x', 'y', 'z']

/-- A text is the numeral of a number, in the lower-case digits of the radix. -/
def DenotesNat (radix : ℕ) (text : List UInt8) (value : ℕ) : Prop :=
  ∃ digits, IsNumeral radix digits value ∧
    List.Forall₂ (fun d c => symbols[d]? = some c) digits text

/-- A text is the numeral of an integer, with a minus sign in front of a negative one. -/
def DenotesInt (radix : ℕ) (text : List UInt8) (value : ℤ) : Prop :=
  (0 ≤ value ∧ DenotesNat radix text value.toNat) ∨
    (value < 0 ∧ ∃ rest, text = 45 :: rest ∧ DenotesNat radix rest (-value).toNat)

/-- A string has been written at `buffer`, and nothing else. -/
structure Wrote (m m' : Memory) (buffer : ℕ) (text : List UInt8) : Prop where
  written : IsCString m' buffer text
  frame : ∀ a, a < buffer ∨ buffer + text.length < a → m' a = m a

/-- What `utoa` writes. -/
def numeralText (radix value : ℕ) : List UInt8 := (numeral radix value).map getSymbol

theorem getSymbol_eq {d : ℕ} (hd : d < 36) : symbols[d]? = some (getSymbol d) := by
  revert d
  decide

section Unsigned
variable {radix value : ℕ}

theorem numeralText_length (hradix : 1 < radix) :
    (numeralText radix value).length = Nat.log radix value + 1 := by
  rw [numeralText, List.length_map, numeral_length hradix]

theorem numeralText_denotes (hradix : 1 < radix) (hmax : radix ≤ 36) :
    DenotesNat radix (numeralText radix value) value := by
  have hnum := @numeral_isNumeral radix value hradix
  refine ⟨_, hnum, List.forall₂_map_right_iff.mpr (List.forall₂_same.mpr fun d hd => ?_)⟩
  exact getSymbol_eq ((hnum.small d hd).trans_le hmax)

theorem log_lt_32 (hradix : 1 < radix) (hvalue : value < 4294967296) :
    Nat.log radix value < 32 :=
  Nat.log_lt_of_lt_pow' (by decide) (lt_of_lt_of_le hvalue (Nat.pow_le_pow_left hradix 32))

theorem log_ten_lt (hvalue : value ≤ 2147483648) : Nat.log 10 value < 10 :=
  Nat.log_lt_of_lt_pow' (by decide) (lt_of_le_of_lt hvalue (by decide))

theorem logLoop_eq (hradix : 1 < radix) {fuel n : ℕ} (hfuel : Nat.log radix value < fuel)
    (hn : n + Nat.log radix value < 4294967296) :
    logLoop radix fuel value n = some (n + Nat.log radix value) := by
  induction fuel generalizing value n with
  | zero => exact absurd hfuel (Nat.not_lt_zero _)
  | succ fuel ih =>
    rw [logLoop]
    split
    next hle =>
      rw [Nat.log_of_one_lt_of_le hradix hle] at hfuel hn ⊢
      rw [u32_of_lt (by omega), ih (by omega) (by omega)]
      congr 1
      omega
    next hlt => rw [Nat.log_of_lt (Nat.lt_of_not_le hlt), Nat.add_zero]

/-- The loop puts down the digits that are left, the last one first. -/
theorem utoaLoop_eq (hradix : 1 < radix) {fuel buffer digitCount i : ℕ} {m : Memory}
    (hfuel : Nat.log radix value < fuel) (hcount : i + Nat.log radix value = digitCount)
    (hfits : buffer + digitCount < 4294967295) :
    ∃ m', utoaLoop buffer radix digitCount fuel m value i = some (m', digitCount + 1) ∧
      m'.Stored buffer (numeralText radix value) ∧
      ∀ a, a < buffer ∨ buffer + Nat.log radix value < a → m' a = m a := by
  induction fuel generalizing value i m with
  | zero => exact absurd hfuel (Nat.not_lt_zero _)
  | succ fuel ih =>
    have hwsub : wsub digitCount i = Nat.log radix value := by
      rw [wsub_of_le (by omega) (by omega)]
      omega
    rw [utoaLoop, hwsub, u32_of_lt (by omega)]
    by_cases hle : radix ≤ value
    · have hlog := Nat.log_of_one_lt_of_le hradix hle
      have hquot : value / radix ≠ 0 := (Nat.div_pos hle (Nat.zero_lt_of_lt hradix)).ne'
      obtain ⟨m', hrun, hstored, hframe⟩ := @ih (value / radix) (i + 1)
        (Function.update m (buffer + Nat.log radix value) (getSymbol (value % radix)))
        (by omega) (by omega)
      refine ⟨m', ?_, ?_, fun a ha => ?_⟩
      · rw [if_pos hquot, u32_of_lt (by omega), hrun]
      · rw [numeralText, numeral_of_le hradix hle, List.map_append, stored_append]
        refine ⟨hstored, stored_cons.mpr ⟨?_, stored_nil⟩⟩
        rw [List.length_map, numeral_length hradix, ← hlog, hframe _ (by omega),
          Function.update_self]
      · rw [hframe a (by omega), Function.update_of_ne (by omega)]
    · have hlt : value < radix := Nat.lt_of_not_le hle
      have hlog : Nat.log radix value = 0 := Nat.log_of_lt hlt
      have hquot : ¬value / radix ≠ 0 := not_not.mpr (Nat.div_eq_of_lt hlt)
      rw [hlog, Nat.add_zero] at hcount
      rw [if_neg hquot, u32_of_lt (by omega), hcount, hlog, Nat.mod_eq_of_lt hlt, Nat.add_zero]
      refine ⟨_, rfl, ?_, fun a ha => Function.update_of_ne (by omega) _ _⟩
      rw [numeralText, numeral_of_lt hlt]
      exact stored_cons.mpr ⟨Function.update_self .., stored_nil⟩

/-- `utoa` writes the numeral and its terminator. -/
theorem utoa_eq (hradix : 1 < radix) {fuel buffer : ℕ} (m : Memory)
    (hfuel : 32 ≤ fuel) (hvalue : value < 4294967296)
    (hfits : buffer + (numeralText radix value).length < 4294967296) :
    ∃ m', utoa m fuel value buffer radix = some (m', buffer) ∧
      Wrote m m' buffer (numeralText radix value) := by
  have hlog := log_lt_32 hradix hvalue
  have hlen := @numeralText_length _ value hradix
  rw [hlen] at hfits
  by_cases hzero : value = 0
  · subst hzero
    have hnext : u32 (buffer + 1) = buffer + 1 := u32_of_lt (by omega)
    have htext : numeralText radix 0 = [48] := by
      rw [numeralText, numeral_of_lt (Nat.zero_lt_of_lt hradix)]
      rfl
    rw [utoa, if_pos rfl, hnext, htext]
    refine ⟨_, rfl, ⟨stored_cons.mpr ⟨?_, stored_nil⟩, Function.update_self ..⟩, fun a ha => ?_⟩
    · rw [Function.update_of_ne (by omega), Function.update_self]
    · rw [List.length_singleton] at ha
      rw [Function.update_of_ne (by omega), Function.update_of_ne (by omega)]
  · obtain ⟨m', hrun, hstored, hframe⟩ := @utoaLoop_eq radix value hradix fuel buffer
      (Nat.log radix value) 0 m (by omega) (Nat.zero_add _) (by omega)
    have hcount : log fuel value radix = some (Nat.log radix value) := by
      rw [log, logLoop_eq hradix (by omega) (by omega), Nat.zero_add]
    have hend : u32 (buffer + (Nat.log radix value + 1)) = buffer + (Nat.log radix value + 1) :=
      u32_of_lt hfits
    refine ⟨Function.update m' (buffer + (Nat.log radix value + 1)) 0, ?_, ⟨?_, ?_⟩, ?_⟩
    · rw [utoa, if_neg hzero, hcount, Option.bind_eq_bind, Option.bind_some, hrun, ← hend]
      rfl
    · refine hstored.agree fun a _ ha => Function.update_of_ne ?_ _ _
      rw [hlen] at ha
      omega
    · rw [hlen, Function.update_self]
    · intro a ha
      rw [hlen] at ha
      rw [Function.update_of_ne (by omega), hframe a (by omega)]

end Unsigned

section Signed
variable {radix : ℕ} {value : ℤ}

/-- What `itoa` writes. -/
def signedText (radix : ℕ) (value : ℤ) : List UInt8 :=
  if value < 0 then 45 :: numeralText radix (-value).toNat else numeralText radix value.toNat

theorem u32OfInt_of_lt (hnonneg : 0 ≤ value) (hlt : value < 4294967296) :
    u32OfInt value = value.toNat := by
  rw [u32OfInt, Int.emod_eq_of_lt hnonneg hlt]

theorem u32OfInt_neg (hmin : -2147483648 ≤ value) (hneg : value < 0) :
    u32OfInt (Int.bmod (-value) 4294967296) = (-value).toNat := by
  have hmod := @Int.bmod_emod (-value) 4294967296
  rw [u32OfInt]
  congr 1
  exact hmod.trans (Int.emod_eq_of_lt (by omega) (by omega))

/-- `itoa` writes the numeral with its sign. -/
theorem itoa_eq (hradix : 1 < radix) {fuel buffer : ℕ} (m : Memory) (hfuel : 32 ≤ fuel)
    (hmin : -2147483648 ≤ value) (hmax : value < 2147483648)
    (hfits : buffer + (signedText radix value).length < 4294967296) :
    ∃ m' p, itoa m fuel value buffer radix = some (m', p) ∧
      Wrote m m' buffer (signedText radix value) := by
  unfold signedText at hfits ⊢
  unfold itoa
  by_cases hneg : value < 0
  · rw [if_pos hneg] at hfits ⊢
    rw [List.length_cons] at hfits
    rw [if_pos hneg, u32OfInt_neg hmin hneg, u32_of_lt (by omega)]
    obtain ⟨m', hrun, htext, hframe⟩ := @utoa_eq radix (-value).toNat hradix fuel (buffer + 1)
      (Function.update m buffer 45) hfuel (by omega) (by omega)
    refine ⟨m', _, hrun, ⟨stored_cons.mpr ⟨?_, htext.1⟩, ?_⟩, fun a ha => ?_⟩
    · rw [hframe _ (.inl (Nat.lt_succ_self _)), Function.update_self]
    · rw [List.length_cons, Nat.add_comm _ 1, ← Nat.add_assoc]
      exact htext.2
    · rw [List.length_cons] at ha
      rw [hframe _ (by omega), Function.update_of_ne (by omega)]
  · rw [if_neg hneg] at hfits ⊢
    rw [if_neg hneg, u32OfInt_of_lt (by omega) (by omega)]
    obtain ⟨m', hrun, hwrote⟩ := @utoa_eq radix value.toNat hradix fuel buffer m hfuel (by omega)
      hfits
    exact ⟨m', _, hrun, hwrote⟩

theorem signedText_denotes (hradix : 1 < radix) (hmax : radix ≤ 36) :
    DenotesInt radix (signedText radix value) value := by
  unfold signedText
  split
  next hneg => exact .inr ⟨hneg, _, rfl, numeralText_denotes hradix hmax⟩
  next hneg => exact .inl ⟨Int.le_of_not_gt hneg, numeralText_denotes hradix hmax⟩

theorem signedText_ten_length (hmin : -2147483648 ≤ value) (hmax : value < 2147483648) :
    (signedText 10 value).length + 1 ≤ 12 := by
  have hlog (n : ℕ) (hn : n ≤ 2147483648) : (numeralText 10 n).length ≤ 10 := by
    rw [numeralText_length (by decide)]
    exact log_ten_lt hn
  unfold signedText
  split
  next => exact Nat.succ_le_succ (Nat.succ_le_succ (hlog _ (by omega)))
  next => exact (Nat.succ_le_succ (hlog _ (by omega))).trans (by decide)

end Signed

/-- `utoa` writes the canonical numeral of every word, in at most 33 bytes, and `itoa` that of
every signed word, in at most 12 bytes of decimal digits; nothing else is written. -/
theorem number_format (m : Memory) (buffer : ℕ) {radix fuel : ℕ} (hradix : 2 ≤ radix)
    (hmax : radix ≤ 36) (hfuel : 32 ≤ fuel) :
    (∀ value < 4294967296, buffer + (numeralText radix value).length < 4294967296 →
      ∃ m', utoa m fuel value buffer radix = some (m', buffer) ∧
        Wrote m m' buffer (numeralText radix value) ∧
        DenotesNat radix (numeralText radix value) value ∧
        (numeralText radix value).length + 1 ≤ 33) ∧
    ∀ value : ℤ, -2147483648 ≤ value → value < 2147483648 →
      buffer + (signedText radix value).length < 4294967296 →
      ∃ m' p, itoa m fuel value buffer radix = some (m', p) ∧
        Wrote m m' buffer (signedText radix value) ∧
        DenotesInt radix (signedText radix value) value ∧
        (radix = 10 → (signedText radix value).length + 1 ≤ 12) := by
  constructor
  · intro value hvalue hfits
    obtain ⟨m', hrun, hwrote⟩ := utoa_eq hradix m hfuel hvalue hfits
    refine ⟨m', hrun, hwrote, numeralText_denotes hradix hmax, ?_⟩
    rw [numeralText_length hradix]
    exact Nat.succ_le_succ (log_lt_32 hradix hvalue)
  · intro value hlow hhigh hfits
    obtain ⟨m', p, hrun, hwrote⟩ := itoa_eq hradix m hfuel hlow hhigh hfits
    refine ⟨m', p, hrun, hwrote, signedText_denotes hradix hmax, ?_⟩
    rintro rfl
    exact signedText_ten_length hlow hhigh

/-- The largest word in binary, and the least integer in decimal. -/
theorem number_format_extremes :
    (∃ m' text, utoa (fun _ => 0) 32 4294967295 4096 2 = some (m', 4096) ∧
      IsCString m' 4096 text ∧ text.length + 1 ≤ 33) ∧
    ∃ m' p text, itoa (fun _ => 0) 32 (-2147483648) 4096 10 = some (m', p) ∧
      IsCString m' 4096 text ∧ DenotesInt 10 text (-2147483648) := by
  have hlen : (numeralText 2 4294967295).length ≤ 32 := by
    rw [numeralText_length (by decide)]
    exact log_lt_32 (by decide) (by decide)
  have hlen' := @signedText_ten_length (-2147483648) (by decide) (by decide)
  constructor
  · obtain ⟨m', hrun, hwrote, -, hsize⟩ := (@number_format (fun _ => 0) 4096 2 32 (by decide)
      (by decide) (by decide)).1 4294967295 (by decide) (by omega)
    exact ⟨m', _, hrun, hwrote.written, hsize⟩
  · obtain ⟨m', p, hrun, hwrote, hdenotes, -⟩ := (@number_format (fun _ => 0) 4096 10 32
      (by decide) (by decide) (by decide)).2 (-2147483648) (by decide) (by decide) (by omega)
    exact ⟨m', p, _, hrun, hwrote.written, hdenotes⟩

end Leg

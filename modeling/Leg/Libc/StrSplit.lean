import Mathlib.Data.List.TakeWhile
import Leg.Lib.StoredBytes
import Leg.Word

/-! `str_split` of `cstring.c`: the pointers to the words of a line, which it terminates in
place. -/
namespace Leg
open Memory

/-- `c == ' ' || c == '\t'`. -/
def isBlank (c : UInt8) : Bool := c == 32 || c == 9

/-- `c && c != ' ' && c != '\t'`. -/
def isWordByte (c : UInt8) : Bool := c != 0 && !isBlank c

/-- A loop that moves a pointer on while the byte there passes a test. -/
def skipWhile (test : UInt8 → Bool) (m : Memory) : (fuel line : ℕ) → Option ℕ
  | 0, _ => none
  | fuel + 1, line =>
    if test (m line) then skipWhile test m fuel (u32 (line + 1)) else some line

/-- The loop of `str_split`, with the words found so far. -/
def strSplitLoop (maxArgc : ℕ) : (fuel : ℕ) → Memory → (line : ℕ) → (argv : List ℕ) →
    Option (Memory × List ℕ)
  | 0, _, _, _ => none
  | fuel + 1, m, line, argv =>
    if m line ≠ 0 ∧ argv.length < maxArgc then do
      let start ← skipWhile isBlank m (fuel + 1) line
      if m start = 0 then some (m, argv)
      else
        let stop ← skipWhile isWordByte m (fuel + 1) start
        if m stop = 0 then strSplitLoop maxArgc fuel m stop (argv ++ [start])
        else strSplitLoop maxArgc fuel (Function.update m stop 0) (u32 (stop + 1)) (argv ++ [start])
    else some (m, argv)

/-- `str_split`, with the pointers that it leaves in `argv`. -/
def strSplit (m : Memory) (fuel line maxArgc : ℕ) : Option (Memory × List ℕ) :=
  strSplitLoop maxArgc fuel m line []

/-- The first run of characters other than blanks. -/
def firstWord (line : List UInt8) : List UInt8 := (line.dropWhile isBlank).takeWhile isWordByte

section Scan
variable {m : Memory} {a fuel : ℕ} {str : List UInt8}

theorem skipWhile_eq {test : UInt8 → Bool} (hzero : test 0 = false) (h : IsCString m a str)
    (hfits : a + str.length < 4294967296) (hfuel : str.length < fuel) :
    skipWhile test m fuel a = some (a + (str.takeWhile test).length) := by
  induction str generalizing a fuel with
  | nil =>
    obtain ⟨k, rfl⟩ := Nat.exists_eq_add_of_lt hfuel
    rw [skipWhile, h.byte_nil, hzero]
    rfl
  | cons c str ih =>
    obtain ⟨k, rfl⟩ : ∃ k, fuel = k + 1 := ⟨fuel - 1, by omega⟩
    rw [List.length_cons] at hfits hfuel
    rw [skipWhile, h.byte_cons]
    by_cases hc : test c = true
    · have hnext : u32 (a + 1) = a + 1 := u32_of_lt (by omega)
      rw [if_pos hc, hnext, ih h.next (by omega) (by omega), List.takeWhile_cons_of_pos hc,
        List.length_cons]
      congr 1
      omega
    · rw [if_neg hc, List.takeWhile_cons_of_neg hc]
      rfl

theorem IsCString.byte_eq_zero (h : IsCString m a str) (hnul : (0 : UInt8) ∉ str) :
    m a = 0 ↔ str = [] := by
  cases str with
  | nil => simp [h.byte_nil]
  | cons c str =>
    rw [h.byte_cons]
    simp only [List.mem_cons, not_or] at hnul
    simp [Ne.symm hnul.1]

end Scan

section Round
variable {m : Memory} {line fuel maxArgc : ℕ} {str : List UInt8} {argv : List ℕ}

theorem line_parts (str : List UInt8) : str = str.takeWhile isBlank ++
    (firstWord str ++ (str.dropWhile isBlank).dropWhile isWordByte) := by
  rw [firstWord, List.takeWhile_append_dropWhile, List.takeWhile_append_dropWhile]

theorem firstWord_eq_nil (hnul : (0 : UInt8) ∉ str) :
    firstWord str = [] ↔ str.dropWhile isBlank = [] := by
  constructor
  · intro hword
    by_contra hne
    have hhead : isBlank ((str.dropWhile isBlank).head hne) = false :=
      List.head_dropWhile_not isBlank hne
    have hmem : (str.dropWhile isBlank).head hne ∈ str :=
      (List.dropWhile_sublist isBlank).mem (List.head_mem hne)
    have hbyte : isWordByte ((str.dropWhile isBlank).head hne) = true := by
      unfold isWordByte
      rw [hhead, Bool.not_false, Bool.and_true]
      exact bne_iff_ne.mpr fun hzero => hnul (hzero ▸ hmem)
    rw [firstWord, ← List.cons_head_tail hne, List.takeWhile_cons_of_pos hbyte] at hword
    exact nomatch hword
  · intro hnil
    rw [firstWord, hnil]
    rfl

theorem round_scan (h : IsCString m line str)
    (hfits : line + str.length < 4294967296) (hfuel : str.length < fuel) :
    let start := line + (str.takeWhile isBlank).length
    let stop := start + (firstWord str).length
    skipWhile isBlank m fuel line = some start ∧
      IsCString m start (str.dropWhile isBlank) ∧
      skipWhile isWordByte m fuel start = some stop ∧
      IsCString m stop ((str.dropWhile isBlank).dropWhile isWordByte) := by
  intro start stop
  have hlen := congrArg List.length (List.takeWhile_append_dropWhile (p := isBlank) (l := str))
  rw [List.length_append] at hlen
  have hstart : IsCString m start (str.dropWhile isBlank) := by
    rw [← List.takeWhile_append_dropWhile (p := isBlank) (l := str)] at h
    exact h.tail
  have hstop : IsCString m stop ((str.dropWhile isBlank).dropWhile isWordByte) := by
    have hparts := hstart
    rw [← List.takeWhile_append_dropWhile (p := isWordByte) (l := str.dropWhile isBlank)] at hparts
    exact hparts.tail
  exact ⟨skipWhile_eq rfl h hfits hfuel, hstart,
    skipWhile_eq rfl hstart (by omega) (by omega), hstop⟩

theorem strSplitLoop_blank (h : IsCString m line str) (hnul : (0 : UInt8) ∉ str)
    (hfits : line + str.length < 4294967296) (hfuel : str.length < fuel)
    (hword : firstWord str = []) : strSplitLoop maxArgc fuel m line argv = some (m, argv) := by
  obtain ⟨k, rfl⟩ : ∃ k, fuel = k + 1 := ⟨fuel - 1, by omega⟩
  obtain ⟨hblanks, hstart, -⟩ := round_scan h hfits hfuel
  rw [(firstWord_eq_nil hnul).mp hword] at hstart
  rw [strSplitLoop, hblanks]
  split
  · show (if _ then _ else _) = _
    rw [if_pos hstart.byte_nil]
  · rfl

/-- A round of the loop that finds a word. -/
theorem strSplitLoop_word (h : IsCString m line str) (hnul : (0 : UInt8) ∉ str)
    (hfits : line + str.length < 4294967296) (hfuel : str.length < fuel + 1)
    (hword : firstWord str ≠ []) (hroom : argv.length < maxArgc) :
    let start := line + (str.takeWhile isBlank).length
    let stop := start + (firstWord str).length
    strSplitLoop maxArgc (fuel + 1) m line argv =
      if (str.dropWhile isBlank).dropWhile isWordByte = [] then
        strSplitLoop maxArgc fuel m stop (argv ++ [start])
      else strSplitLoop maxArgc fuel (Function.update m stop 0) (stop + 1) (argv ++ [start]) := by
  intro start stop
  obtain ⟨hblanks, hstart, hscan, hstop⟩ := round_scan h hfits hfuel
  have hne : str ≠ [] := by
    rintro rfl
    exact hword rfl
  have hrest : (0 : UInt8) ∉ str.dropWhile isBlank := fun hmem =>
    hnul ((List.dropWhile_sublist isBlank).mem hmem)
  have hrest' : (0 : UInt8) ∉ (str.dropWhile isBlank).dropWhile isWordByte := fun hmem =>
    hrest ((List.dropWhile_sublist isWordByte).mem hmem)
  have hguard : m line ≠ 0 ∧ argv.length < maxArgc :=
    ⟨fun hzero => hne ((h.byte_eq_zero hnul).mp hzero), hroom⟩
  have hbehind : ¬m start = 0 := fun hzero =>
    hword ((firstWord_eq_nil hnul).mpr ((hstart.byte_eq_zero hrest).mp hzero))
  rw [strSplitLoop, if_pos hguard, hblanks]
  show (if _ then _ else _) = _
  rw [if_neg hbehind, hscan]
  show (if _ then _ else _) = _
  by_cases hend : (str.dropWhile isBlank).dropWhile isWordByte = []
  · rw [if_pos hend, if_pos ((hstop.byte_eq_zero hrest').mpr hend)]
  · have hlen := congrArg List.length (line_parts str)
    have hpos := List.length_pos_iff.mpr hend
    rw [List.length_append, List.length_append] at hlen
    have hnext : u32 (stop + 1) = stop + 1 := u32_of_lt (by omega)
    rw [if_neg hend, if_neg fun hzero => hend ((hstop.byte_eq_zero hrest').mp hzero), hnext]

theorem IsCString.behind {stop : ℕ} {rest : List UInt8} (h : IsCString m stop rest)
    (hne : rest ≠ []) : IsCString (Function.update m stop 0) (stop + 1) rest.tail := by
  rw [← List.cons_head_tail hne] at h
  exact h.next.agree fun b hb _ => Function.update_of_ne (by omega) _ _

/-- The loop ends, keeps the words that it has, and changes nothing outside the line. -/
theorem strSplitLoop_frame (fuel : ℕ) : ∀ {m : Memory} {line : ℕ} {str : List UInt8}
    {argv : List ℕ}, IsCString m line str → (0 : UInt8) ∉ str →
    line + str.length < 4294967296 → str.length < fuel →
    ∃ m' more, strSplitLoop maxArgc fuel m line argv = some (m', argv ++ more) ∧
      ∀ a, a < line ∨ line + str.length ≤ a → m' a = m a := by
  induction fuel with
  | zero =>
    intro m line str argv _ _ _ hfuel
    exact absurd hfuel (Nat.not_lt_zero _)
  | succ fuel ih =>
    intro m line str argv h hnul hfits hfuel
    by_cases hword : firstWord str = []
    · exact ⟨m, [], by rw [strSplitLoop_blank h hnul hfits hfuel hword, List.append_nil],
        fun _ _ => rfl⟩
    by_cases hroom : argv.length < maxArgc
    · have hpos := List.length_pos_iff.mpr hword
      have hlen := congrArg List.length (line_parts str)
      rw [List.length_append, List.length_append] at hlen
      obtain ⟨-, -, -, hstop⟩ := round_scan h hfits hfuel
      have hrest : (0 : UInt8) ∉ (str.dropWhile isBlank).dropWhile isWordByte := fun hmem =>
        hnul ((List.dropWhile_sublist isBlank).mem ((List.dropWhile_sublist isWordByte).mem hmem))
      rw [strSplitLoop_word h hnul hfits hfuel hword hroom]
      by_cases hend : (str.dropWhile isBlank).dropWhile isWordByte = []
      · rw [if_pos hend]
        rw [hend] at hstop hlen
        obtain ⟨m', more, hrun, hframe⟩ := ih hstop (List.not_mem_nil) (by
          rw [List.length_nil] at hlen ⊢
          omega) (by rw [List.length_nil]; omega)
        refine ⟨m', _ :: more, by rw [hrun, List.append_assoc]; rfl, fun a ha => hframe a ?_⟩
        rw [List.length_nil] at hlen ⊢
        omega
      · rw [if_neg hend]
        have hmore := List.length_pos_iff.mpr hend
        have hbehind := hstop.behind hend
        have htail : (0 : UInt8) ∉ ((str.dropWhile isBlank).dropWhile isWordByte).tail :=
          fun hmem => hrest (List.mem_of_mem_tail hmem)
        obtain ⟨m', more, hrun, hframe⟩ := ih hbehind htail (by rw [List.length_tail]; omega)
          (by rw [List.length_tail]; omega)
        refine ⟨m', _ :: more, by rw [hrun, List.append_assoc]; rfl, fun a ha => ?_⟩
        rw [hframe a (by rw [List.length_tail]; omega), Function.update_of_ne (by omega)]
    · have hguard : ¬(m line ≠ 0 ∧ argv.length < maxArgc) := fun hboth => hroom hboth.2
      rw [strSplitLoop, if_neg hguard]
      exact ⟨m, [], by rw [List.append_nil], fun _ _ => rfl⟩

/-- The first pointer of a split leads to the first word, terminated in place. -/
theorem strSplit_first (h : IsCString m line str) (hnul : (0 : UInt8) ∉ str)
    (hfits : line + str.length < 4294967296) (hfuel : str.length < fuel)
    (hword : firstWord str ≠ []) (hroom : 0 < maxArgc) :
    ∃ m' start more, strSplit m fuel line maxArgc = some (m', start :: more) ∧
      line ≤ start ∧ start + (firstWord str).length ≤ line + str.length ∧
      IsCString m' start (firstWord str) ∧
      ∀ a, a < line ∨ line + str.length ≤ a → m' a = m a := by
  obtain ⟨k, rfl⟩ : ∃ k, fuel = k + 1 := ⟨fuel - 1, by omega⟩
  obtain ⟨-, hstart, -, hstop⟩ := round_scan h hfits hfuel
  have hpos := List.length_pos_iff.mpr hword
  have hlen := congrArg List.length (line_parts str)
  rw [List.length_append, List.length_append] at hlen
  have hparts : str.dropWhile isBlank =
      firstWord str ++ (str.dropWhile isBlank).dropWhile isWordByte :=
    (List.takeWhile_append_dropWhile).symm
  unfold strSplit
  rw [strSplitLoop_word h hnul hfits hfuel hword hroom]
  by_cases hend : (str.dropWhile isBlank).dropWhile isWordByte = []
  · rw [hend, List.append_nil] at hparts
    rw [hend] at hstop
    obtain ⟨m', more, hrun, hframe⟩ := strSplitLoop_frame k hstop (List.not_mem_nil)
      (by rw [List.length_nil]; omega) (by rw [List.length_nil]; omega)
    rw [if_pos hend]
    refine ⟨m', _, more, hrun, Nat.le_add_right _ _, by omega, ?_, fun a ha => hframe a ?_⟩
    · rw [hparts] at hstart
      exact hstart.agree fun a _ _ => hframe a (by rw [List.length_nil]; omega)
    · rw [List.length_nil]
      omega
  · have hmore := List.length_pos_iff.mpr hend
    have htail : (0 : UInt8) ∉ ((str.dropWhile isBlank).dropWhile isWordByte).tail := fun hmem =>
      hnul ((List.dropWhile_sublist isBlank).mem
        ((List.dropWhile_sublist isWordByte).mem (List.mem_of_mem_tail hmem)))
    obtain ⟨m', more, hrun, hframe⟩ := strSplitLoop_frame k (hstop.behind hend) htail
      (by rw [List.length_tail]; omega) (by rw [List.length_tail]; omega)
    rw [if_neg hend]
    refine ⟨m', _, more, hrun, Nat.le_add_right _ _, by omega, ⟨?_, ?_⟩, fun a ha => ?_⟩
    · rw [hparts] at hstart
      intro j hj
      rw [hframe _ (by omega), Function.update_of_ne (by omega)]
      exact (stored_append.mp hstart.1).1 j hj
    · rw [hframe _ (by omega), Function.update_self]
    · rw [hframe a (by rw [List.length_tail]; omega), Function.update_of_ne (by omega)]

end Round

end Leg

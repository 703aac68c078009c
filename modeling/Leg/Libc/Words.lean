import Leg.Lib.MaximalRuns
import Leg.Libc.StrSplit

/-! What `str_split` leaves behind: the words of the line are its maximal runs of characters other
than blanks. -/
namespace Leg
open Memory

/-- `c != ' ' && c != '\t'`. -/
def notBlank (c : UInt8) : Bool := !isBlank c

/-- The bytes of a range. -/
def between (str : List UInt8) (r : ℕ × ℕ) : List UInt8 := (str.drop r.1).take (r.2 - r.1)

/-- What a split leaves behind: the words that it has found are terminated in place, and only the
delimiters behind them have changed. -/
structure Terminated (m m' : Memory) (line : ℕ) (str : List UInt8) (runs : List (ℕ × ℕ)) :
    Prop where
  words : ∀ r ∈ runs, IsCString m' (line + r.1) (between str r)
  frame : ∀ a, (∀ r ∈ runs, a ≠ line + r.2) → m' a = m a

section Bytes
variable {m : Memory} {line pos fuel : ℕ} {str : List UInt8}

theorem takeWhile_isWordByte {l : List UInt8} (hnul : (0 : UInt8) ∉ l) :
    l.takeWhile isWordByte = l.takeWhile notBlank := by
  induction l with
  | nil => rfl
  | cons c l ih =>
    have hc : (c != 0) = true := bne_iff_ne.mpr fun hzero => hnul (hzero ▸ List.mem_cons_self ..)
    have hsame : isWordByte c = notBlank c := by
      rw [isWordByte, hc, Bool.true_and, notBlank]
    rw [List.takeWhile_cons, List.takeWhile_cons, hsame,
      ih fun hmem => hnul (List.mem_cons_of_mem _ hmem)]

theorem blanks_pass {k : ℕ} (hlow : pos ≤ k)
    (hhigh : k < pos + ((str.drop pos).takeWhile isBlank).length) :
    passesAt notBlank str k = false := by
  obtain ⟨j, rfl⟩ := Nat.exists_eq_add_of_le hlow
  have hblank := (passesAt_takeWhile isBlank (str.drop pos)).1 j (Nat.lt_of_add_lt_add_left hhigh)
  rw [passesAt_drop] at hblank
  unfold passesAt at hblank ⊢
  cases hget : str[pos + j]? with
  | none => rfl
  | some c =>
    rw [hget, Option.any_some] at hblank
    rw [Option.any_some, notBlank, hblank]
    rfl

theorem runsFrom_blank (hnul : (0 : UInt8) ∉ str.drop pos) (hword : firstWord (str.drop pos) = []) :
    runsFrom notBlank str pos = [] := by
  have hnil := (firstWord_eq_nil hnul).mp hword
  have hlen := congrArg List.length
    (List.takeWhile_append_dropWhile (p := isBlank) (l := str.drop pos))
  rw [hnil, List.append_nil] at hlen
  have hskip : runsFrom notBlank str pos =
      runsFrom notBlank str (pos + ((str.drop pos).takeWhile isBlank).length) := by
    apply runsFrom_skip (Nat.le_add_right _ _)
    intro k hlow hhigh
    rw [startsRun, blanks_pass hlow hhigh, Bool.false_and]
  rw [hskip, hlen, runsFrom, Nat.sub_eq_zero_of_le]
  · rfl
  · rw [List.length_drop]
    omega

/-- The first word from a position on is a maximal run, if none reaches over the position. -/
theorem firstWord_run (hnul : (0 : UInt8) ∉ str)
    (hleft : pos = 0 ∨ passesAt notBlank str (pos - 1) = false)
    (hword : firstWord (str.drop pos) ≠ []) :
    let start := pos + ((str.drop pos).takeWhile isBlank).length
    let stop := start + (firstWord (str.drop pos)).length
    IsMaximalRun notBlank str start stop ∧ between str (start, stop) = firstWord (str.drop pos) ∧
      str.drop start = (str.drop pos).dropWhile isBlank ∧
      str.drop stop = ((str.drop pos).dropWhile isBlank).dropWhile isWordByte := by
  intro start stop
  have hdrop : str.drop start = (str.drop pos).dropWhile isBlank := by
    rw [← List.drop_drop]
    nth_rewrite 2 [← List.takeWhile_append_dropWhile (p := isBlank) (l := str.drop pos)]
    exact List.drop_left
  have hnul' : (0 : UInt8) ∉ str.drop start := fun hmem => hnul (List.mem_of_mem_drop hmem)
  have hfirst : firstWord (str.drop pos) = (str.drop start).takeWhile notBlank := by
    rw [firstWord, ← hdrop, takeWhile_isWordByte hnul']
  have hpos := List.length_pos_iff.mpr hword
  obtain ⟨hinside, hright⟩ := passesAt_takeWhile notBlank (str.drop start)
  rw [← hfirst, passesAt_drop] at hright
  rw [← hfirst] at hinside
  have hstart : passesAt notBlank str start = true := by
    have hzero := hinside 0 hpos
    rwa [passesAt_drop] at hzero
  have hrest : str.drop stop = ((str.drop pos).dropWhile isBlank).dropWhile isWordByte := by
    rw [← List.drop_drop, hdrop]
    nth_rewrite 1 [← List.takeWhile_append_dropWhile (p := isWordByte)
      (l := (str.drop pos).dropWhile isBlank)]
    exact List.drop_left
  refine ⟨⟨Nat.lt_add_of_pos_right hpos, fun k hlow hhigh => ?_, ?_, hright⟩, ?_, hdrop, hrest⟩
  · obtain ⟨j, rfl⟩ := Nat.exists_eq_add_of_le hlow
    rw [← passesAt_drop]
    exact hinside j (Nat.lt_of_add_lt_add_left hhigh)
  · by_cases hblanks : ((str.drop pos).takeWhile isBlank).length = 0
    · have heq : start = pos := by omega
      rw [heq]
      exact hleft
    · have hlow : pos ≤ start - 1 := by omega
      exact .inr (blanks_pass hlow (by omega))
  · have hprefix := List.takeWhile_prefix notBlank (l := str.drop start)
    rw [← hfirst] at hprefix
    rw [between, Nat.add_sub_cancel_left]
    exact (List.prefix_iff_eq_take.mp hprefix).symm

end Bytes

section Split
variable {line fuel maxArgc : ℕ} {str : List UInt8}

theorem terminated_nil (m : Memory) (line : ℕ) (str : List UInt8) : Terminated m m line str [] :=
  ⟨fun _ hr => absurd hr List.not_mem_nil, fun _ _ => rfl⟩

/-- A word is terminated by the byte behind it, and the rest of the split leaves it alone. -/
theorem Terminated.cons {m m' : Memory} {start stop : ℕ} {word rest : List UInt8}
    {runs : List (ℕ × ℕ)} (hword : between str (start, stop) = word)
    (hlen : stop = start + word.length) (h : IsCString m (line + start) (word ++ rest))
    (hruns : ∀ r ∈ runs, stop < r.2)
    (ht : Terminated (Function.update m (line + stop) 0) m' line str runs) :
    Terminated m m' line str ((start, stop) :: runs) := by
  constructor
  · intro r hr
    rcases List.mem_cons.mp hr with rfl | hr
    · rw [hword]
      constructor
      · intro k hk
        have hbehind : ∀ r ∈ runs, line + start + k ≠ line + r.2 := by
          intro r hr
          have hlater := hruns r hr
          omega
        rw [ht.frame _ hbehind, Function.update_of_ne (by omega)]
        exact (stored_append.mp h.1).1 k hk
      · have hbehind : ∀ r ∈ runs, line + start + word.length ≠ line + r.2 := by
          intro r hr
          have hlater := hruns r hr
          omega
        rw [ht.frame _ hbehind, show line + start + word.length = line + stop by omega,
          Function.update_self]
    · exact ht.words r hr
  · intro a ha
    rw [ht.frame a fun r hr => ha r (List.mem_cons_of_mem _ hr),
      Function.update_of_ne (ha _ (List.mem_cons_self ..))]

/-- The loop takes the runs that are left, in their order, as long as there is room. -/
theorem strSplitLoop_runs (fuel : ℕ) : ∀ {m : Memory} {pos : ℕ} {argv : List ℕ},
    IsCString m (line + pos) (str.drop pos) → (0 : UInt8) ∉ str → pos ≤ str.length →
    (pos = 0 ∨ passesAt notBlank str (pos - 1) = false) →
    line + str.length < 4294967296 → (str.drop pos).length < fuel →
    ∃ m', strSplitLoop maxArgc fuel m (line + pos) argv = some (m', argv ++
        ((runsFrom notBlank str pos).take (maxArgc - argv.length)).map fun r => line + r.1) ∧
      Terminated m m' line str ((runsFrom notBlank str pos).take (maxArgc - argv.length)) := by
  induction fuel with
  | zero =>
    intro m pos argv _ _ _ _ _ hfuel
    exact absurd hfuel (Nat.not_lt_zero _)
  | succ fuel ih =>
    intro m pos argv h hnul hpos hleft hfits hfuel
    have hnul' : (0 : UInt8) ∉ str.drop pos := fun hmem => hnul (List.mem_of_mem_drop hmem)
    have hfits' : line + pos + (str.drop pos).length < 4294967296 := by
      rw [List.length_drop]
      omega
    by_cases hword : firstWord (str.drop pos) = []
    · rw [runsFrom_blank hnul' hword, List.take_nil, List.map_nil, List.append_nil]
      exact ⟨m, strSplitLoop_blank h hnul' hfits' hfuel hword, terminated_nil m line str⟩
    by_cases hroom : argv.length < maxArgc
    · obtain ⟨hrun, hspan, hdrop, hdrop'⟩ := firstWord_run hnul hleft hword
      obtain ⟨-, hstart, -, hstop⟩ := round_scan h hfits' hfuel
      have hloop := strSplitLoop_word h hnul' hfits' hfuel hword hroom
      dsimp only at hrun hspan hdrop hdrop' hstart hstop hloop
      generalize hs : pos + ((str.drop pos).takeWhile isBlank).length = start at *
      generalize he : start + (firstWord (str.drop pos)).length = stop at *
      rw [Nat.add_assoc line, hs] at hstart hstop hloop
      rw [Nat.add_assoc line, he] at hstop hloop
      rw [← hdrop'] at hstop hloop
      have hskip : runsFrom notBlank str pos = (start, stop) :: runsFrom notBlank str stop := by
        rw [← runsFrom_run hrun]
        apply runsFrom_skip (by omega)
        intro k hlow hhigh
        rw [startsRun, blanks_pass hlow (hs ▸ hhigh), Bool.false_and]
      have hroom' : maxArgc - argv.length = maxArgc - (argv ++ [line + start]).length + 1 := by
        rw [List.length_append, List.length_singleton]
        omega
      have hparts : (str.drop pos).dropWhile isBlank =
          firstWord (str.drop pos) ++ str.drop stop := by
        rw [hdrop']
        exact List.takeWhile_append_dropWhile.symm
      have hpos' := List.length_pos_iff.mpr hword
      have hlen := hrun.stop_le
      rw [hparts] at hstart
      rw [hskip, hroom', List.take_succ_cons, List.map_cons, List.append_cons, hloop]
      rw [List.length_drop] at hfuel
      by_cases hend : str.drop stop = []
      · have hsame : Function.update m (line + stop) 0 = m := by
          rw [hend] at hstop
          rw [← hstop.byte_nil, Function.update_eq_self]
        have hnone : runsFrom notBlank str stop = [] := by
          rw [runsFrom, Nat.sub_eq_zero_of_le (List.drop_eq_nil_iff.mp hend)]
          rfl
        rw [if_pos hend, hnone, List.take_nil, List.map_nil, List.append_nil]
        refine ⟨m, strSplitLoop_blank hstop (by rw [hend]; exact List.not_mem_nil) ?_ ?_ ?_,
          .cons hspan he.symm hstart (fun r hr => absurd hr List.not_mem_nil) ?_⟩
        · rw [hend, List.length_nil]
          omega
        · rw [hend, List.length_nil]
          omega
        · rw [hend]
          rfl
        · rw [hsame]
          exact terminated_nil m line str
      · have hmore : stop < str.length := by
          by_contra hge
          exact hend (List.drop_eq_nil_iff.mpr (Nat.le_of_not_lt hge))
        have hbehind := hstop.behind hend
        rw [List.tail_drop] at hbehind
        have hnext : runsFrom notBlank str stop = runsFrom notBlank str (stop + 1) := by
          apply runsFrom_skip (Nat.le_succ stop)
          intro k hlow hhigh
          obtain rfl : k = stop := by omega
          rw [startsRun, hrun.right, Bool.false_and]
        obtain ⟨m', hloop', hterm⟩ := @ih (Function.update m (line + stop) 0) (stop + 1)
          (argv ++ [line + start]) hbehind hnul hmore (.inr hrun.right) hfits
          (by rw [List.length_drop]; omega)
        rw [if_neg hend, hnext]
        refine ⟨m', hloop', .cons hspan he.symm hstart (fun r hr => ?_) hterm⟩
        obtain ⟨hlater, hrun'⟩ := mem_runsFrom.mp (List.mem_of_mem_take hr)
        have hlt := hrun'.nonempty
        omega
    · rw [Nat.sub_eq_zero_of_le (Nat.le_of_not_lt hroom), List.take_zero, List.map_nil,
        List.append_nil, strSplitLoop, if_neg fun hboth => hroom hboth.2]
      exact ⟨m, rfl, terminated_nil m line str⟩

/-- `str_split` finds the maximal runs of characters other than blanks, as many as there is room
for: it returns pointers to them in their order, has terminated each one where it ends, and has
changed no other byte. -/
theorem str_split_words {m : Memory} (h : IsCString m line str) (hnul : (0 : UInt8) ∉ str)
    (hfits : line + str.length < 4294967296) (hfuel : str.length < fuel) (maxArgc : ℕ) :
    ∃ runs : List (ℕ × ℕ), (runs.Pairwise fun r s => r.1 < s.1) ∧
      (∀ r, r ∈ runs ↔ IsMaximalRun notBlank str r.1 r.2) ∧
      ∃ m' argv, strSplit m fuel line maxArgc = some (m', argv) ∧
        argv = ((runs.take maxArgc).map fun r => line + r.1) ∧
        argv.length = min maxArgc runs.length ∧
        (∀ r ∈ runs.take maxArgc, IsCString m' (line + r.1) (between str r)) ∧
        ∀ a, (∀ r ∈ runs.take maxArgc, a ≠ line + r.2) → m' a = m a := by
  obtain ⟨m', hloop, hterm⟩ := @strSplitLoop_runs line maxArgc str fuel m 0 [] h hnul
    (Nat.zero_le _) (.inl rfl) hfits hfuel
  refine ⟨runsFrom notBlank str 0, runsFrom_sorted _ _ _, fun r => ?_, m', _, hloop, rfl, ?_,
    hterm.words, hterm.frame⟩
  · rw [mem_runsFrom]
    exact and_iff_right (Nat.zero_le _)
  · rw [List.nil_append, List.length_map, List.length_take, List.length_nil, Nat.sub_zero]

end Split

/-- Two blanks, two words and a blank. -/
def twoWords : List UInt8 := [32, 9, 108, 115, 32, 47, 32]

/-- A memory that holds the two words at 64. -/
def twoWordsMemory : Memory := fun a => twoWords.getD (a - 64) 0

/-- With room for one pointer, `ls` is found and terminated. -/
theorem str_split_two_words : ∃ runs : List (ℕ × ℕ),
    (∀ r, r ∈ runs ↔ IsMaximalRun notBlank twoWords r.1 r.2) ∧
    ∃ m' argv, strSplit twoWordsMemory 8 64 1 = some (m', argv) ∧
      argv = ((runs.take 1).map fun r => 64 + r.1) ∧
      ∀ r ∈ runs.take 1, IsCString m' (64 + r.1) (between twoWords r) := by
  have hline : IsCString twoWordsMemory 64 twoWords := by
    refine ⟨?_, rfl⟩
    unfold Stored
    decide
  obtain ⟨runs, -, hruns, m', argv, hsplit, hargv, -, hwords, -⟩ :=
    @str_split_words 64 8 twoWords twoWordsMemory hline (by decide) (by decide) (by decide) 1
  exact ⟨runs, hruns, m', argv, hsplit, hargv, hwords⟩

end Leg

import Mathlib.Data.Fintype.Card
import Leg.Dtb.Parse

/-! The look-ahead of `parse_node`, one round at a time. Where the scan goes does not depend on
the count, so a scan that ends is never twice at one place of the node's own level. -/
namespace Leg

/-- What a round of the look-ahead does: it ends, or it goes on at a place and depth, with a
property counted or not. -/
inductive LookAhead where
  | stop
  | move (scan depth : ℕ) (counted : Bool)

section Scan
variable (m : Readable) (p : Parser)

/-- A round of the look-ahead. -/
def lookStep (scan depth : ℕ) : Outcome LookAhead :=
  if !inStruct p scan 4 then .ok .stop
  else do
    let tok ← Outcome.ofRead (be32Read m scan)
    let scan := u32 (scan + 4)
    if tok = dtbNop then return .move scan depth false
    else if tok = dtbEndNode then
      if depth = 0 then return .stop else return .move scan (depth - 1) false
    else if tok = dtbBeginNode then do
      let stop ← nameEnd m p (p.structSize + 1) scan
      return .move (structAt p (wsub (u32 (stop + 1)) p.structBlock)) (u32 (depth + 1)) false
    else if tok = dtbPropToken then
      if !inStruct p scan 8 then return .stop
      else do
        let plen ← Outcome.ofRead (be32Read m scan)
        return .move (structAt p (wsub (u32 (scan + 8)) p.structBlock + plen)) depth
          (decide (depth = 0))
    else if tok = dtbEnd then return .stop
    else return .move scan depth false

/-- How many properties the scan counts, not wrapped. -/
def looks : (fuel scan depth : ℕ) → Outcome ℕ
  | 0, _, _ => .outOfSteps
  | fuel + 1, scan, depth => do
    match ← lookStep m p scan depth with
    | .stop => return 0
    | .move scan depth counted => do
      let r ← looks fuel scan depth
      return if counted then r + 1 else r

/-- A place in the structure block at a whole number of words from its start. -/
def WordPlace (scan : ℕ) : Prop := ∃ k < 1073741824, scan = u32 (p.structBlock + 4 * k)

end Scan

section Rounds
variable {m : Readable} {p : Parser} {scan depth : ℕ}

/-- The look-ahead is the repetition of its rounds. -/
theorem countProps_succ (fuel count : ℕ) : countProps m p (fuel + 1) scan depth count =
    (lookStep m p scan depth >>= fun step =>
      match step with
      | .stop => .ok count
      | .move next depth' counted =>
        countProps m p fuel next depth' (if counted then u32 (count + 1) else count)) := by
  rw [countProps, lookStep]
  split
  · rfl
  · cases be32Read m scan with
    | none => rfl
    | some tok =>
      simp only [Outcome.ofRead_some, Outcome.ok_bind]
      split
      · rfl
      split
      · split <;> rfl
      split
      · cases nameEnd m p (p.structSize + 1) (u32 (scan + 4)) <;> rfl
      split
      · split
        · rfl
        · cases be32Read m (u32 (scan + 4)) with
          | none => rfl
          | some plen =>
            simp only [Outcome.ofRead_some, Outcome.ok_bind]
            by_cases hdepth : depth = 0
            · simp [hdepth, pure]
            · simp [hdepth, pure]
      split
      · rfl
      · rfl

theorem structAt_wordPlace (off : ℕ) : WordPlace p (structAt p off) := by
  have hmask : u32 (off + 3) &&& bnot 3 = u32 (off + 3) / 4 * 4 :=
    land_bnot_two_pow (k := 2) (u32_lt _) (by decide)
  have hlt := u32_lt (off + 3)
  refine ⟨u32 (off + 3) / 4, by omega, ?_⟩
  rw [structAt, hmask, Nat.mul_comm]

theorem WordPlace.next (h : WordPlace p scan) : WordPlace p (u32 (scan + 4)) := by
  obtain ⟨k, hk, rfl⟩ := h
  by_cases hlast : k + 1 = 1073741824
  · refine ⟨0, by decide, ?_⟩
    unfold u32
    omega
  · refine ⟨k + 1, by omega, ?_⟩
    unfold u32
    omega

/-- A round goes on at a whole word, and counts only the properties of the node itself. -/
theorem lookStep_move {next depth' : ℕ} {counted : Bool}
    (h : lookStep m p scan depth = .ok (.move next depth' counted)) (hscan : WordPlace p scan) :
    WordPlace p next ∧ (counted = true → depth = 0) := by
  rw [lookStep] at h
  split at h
  · exact nomatch h
  · obtain ⟨tok, -, h⟩ := Outcome.bind_eq_ok.mp h
    dsimp only at h
    split at h
    · cases h
      exact ⟨hscan.next, fun hc => nomatch hc⟩
    split at h
    · split at h
      · exact nomatch h
      · cases h
        exact ⟨hscan.next, fun hc => nomatch hc⟩
    split at h
    · obtain ⟨stop, -, h⟩ := Outcome.bind_eq_ok.mp h
      cases h
      exact ⟨structAt_wordPlace _, fun hc => nomatch hc⟩
    split at h
    · split at h
      · exact nomatch h
      · obtain ⟨plen, -, h⟩ := Outcome.bind_eq_ok.mp h
        cases h
        exact ⟨structAt_wordPlace _, of_decide_eq_true⟩
    split at h
    · exact nomatch h
    · cases h
      exact ⟨hscan.next, fun hc => nomatch hc⟩

/-- The look-ahead returns the count of its scan, modulo `2^32`. -/
theorem countProps_looks {fuel count n : ℕ} (h : countProps m p fuel scan depth count = .ok n)
    (hcount : count < 4294967296) :
    ∃ r, looks m p fuel scan depth = .ok r ∧ n = u32 (count + r) := by
  induction fuel generalizing scan depth count with
  | zero =>
    rw [countProps] at h
    exact nomatch h
  | succ fuel ih =>
    rw [countProps_succ] at h
    obtain ⟨step, hstep, h⟩ := Outcome.bind_eq_ok.mp h
    rw [looks, hstep, Outcome.ok_bind]
    cases step with
    | stop =>
      obtain rfl := Outcome.ok.inj h
      exact ⟨0, rfl, (u32_of_lt hcount).symm⟩
    | move next depth' counted =>
      cases counted with
      | false =>
        obtain ⟨r, hr, hn⟩ := ih h hcount
        refine ⟨r, ?_, hn⟩
        dsimp only
        rw [hr]
        rfl
      | true =>
        obtain ⟨r, hr, hn⟩ := ih h (u32_lt _)
        refine ⟨r + 1, ?_, ?_⟩
        · dsimp only
          rw [hr]
          rfl
        · rw [hn, if_pos rfl]
          unfold u32
          omega

theorem looks_mono {fuel r : ℕ} (h : looks m p fuel scan depth = .ok r) {fuel' : ℕ}
    (hle : fuel ≤ fuel') : looks m p fuel' scan depth = .ok r := by
  induction fuel generalizing scan depth r fuel' with
  | zero => exact nomatch h
  | succ fuel ih =>
    obtain ⟨k, rfl⟩ := Nat.exists_eq_succ_of_ne_zero (by omega : fuel' ≠ 0)
    rw [looks] at h ⊢
    obtain ⟨step, hstep, h⟩ := Outcome.bind_eq_ok.mp h
    rw [hstep, Outcome.ok_bind]
    cases step with
    | stop => exact h
    | move next depth' counted =>
      obtain ⟨r', hr', h⟩ := Outcome.bind_eq_ok.mp h
      dsimp only
      rw [ih hr' (Nat.le_of_succ_le_succ hle)]
      exact h

/-- At each count on the way down to nothing the scan is at some word of the node's own level. -/
theorem looks_passes {fuel r : ℕ} (h : looks m p fuel scan depth = .ok r)
    (hscan : WordPlace p scan) {k : ℕ} (hpos : 0 < k) (hle : k ≤ r) :
    ∃ scan' fuel', WordPlace p scan' ∧ looks m p fuel' scan' 0 = .ok k := by
  induction fuel generalizing scan depth r with
  | zero => exact nomatch h
  | succ fuel ih =>
    obtain ⟨step, hstep, hrest⟩ := Outcome.bind_eq_ok.mp (show _ = _ from h)
    cases step with
    | stop =>
      obtain rfl := Outcome.ok.inj hrest
      omega
    | move next depth' counted =>
      obtain ⟨hnext, hcounted⟩ := lookStep_move hstep hscan
      obtain ⟨r', hr', hrest⟩ := Outcome.bind_eq_ok.mp hrest
      have hr := Outcome.ok.inj hrest
      by_cases hk : k ≤ r'
      · exact ih hr' hnext hk
      · cases counted with
        | false =>
          simp only [Bool.false_eq_true, if_false] at hr
          omega
        | true =>
          obtain rfl := hcounted rfl
          simp only [if_true] at hr
          obtain rfl : k = r := by omega
          exact ⟨scan, fuel + 1, hscan, h⟩

theorem looks_le {fuel r : ℕ} (h : looks m p fuel scan depth = .ok r) (hscan : WordPlace p scan) :
    r ≤ 1073741824 := by
  have hplace (k : Fin r) : ∃ w : Fin 1073741824, ∃ fuel',
      looks m p fuel' (u32 (p.structBlock + 4 * w)) 0 = .ok (k + 1) := by
    obtain ⟨scan', fuel', ⟨w, hw, rfl⟩, hlooks⟩ :=
      looks_passes h hscan (Nat.succ_pos k) (Nat.succ_le_of_lt k.isLt)
    exact ⟨⟨w, hw⟩, fuel', hlooks⟩
  choose place steps hlooks using hplace
  have hinj : Function.Injective place := by
    intro i j hij
    have hi := looks_mono (hlooks i) (Nat.le_max_left (steps i) (steps j))
    have hj := looks_mono (hlooks j) (Nat.le_max_right (steps i) (steps j))
    rw [hij, hj] at hi
    exact Fin.ext (Nat.succ.inj (Outcome.ok.inj hi)).symm
  have hcard := Fintype.card_le_of_injective place hinj
  rwa [Fintype.card_fin, Fintype.card_fin] at hcard

theorem countProps_le {fuel n : ℕ} (h : countProps m p fuel scan depth 0 = .ok n)
    (hscan : WordPlace p scan) : n ≤ 1073741824 := by
  obtain ⟨r, hr, rfl⟩ := countProps_looks h (by decide)
  have hle := looks_le hr hscan
  rw [Nat.zero_add, u32_of_lt (by omega)]
  exact hle

end Rounds

end Leg

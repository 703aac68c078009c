import Leg.Lib.XorShift

/-! The generator of `rng.c`, over any sequence of its calls. -/
namespace Leg

/-- The initial value of `state`, and the seed that stands in for zero. -/
def rngDefault : BitVec 32 := 0xDEADBEEF

/-- `sys_rng_seed`: the new `state`. -/
def sysRngSeed (seed : BitVec 32) : BitVec 32 := if seed ≠ 0 then seed else rngDefault

/-- `sys_rand32`: what it returns, and the new `state`. -/
def sysRand32 (state : BitVec 32) : BitVec 32 × BitVec 32 :=
  let x := state
  let x := x ^^^ x <<< 13
  let x := x ^^^ x >>> 17
  let x := x ^^^ x <<< 5
  (x, x)

inductive RngCall where
  | seed (seed : BitVec 32)
  | rand32

/-- The state after some calls, and what the draws among them have returned. -/
def rngRun (state : BitVec 32) : List RngCall → BitVec 32 × List (BitVec 32)
  | [] => (state, [])
  | .seed s :: calls => rngRun (sysRngSeed s) calls
  | .rand32 :: calls =>
    let drawn := sysRand32 state
    let rest := rngRun drawn.2 calls
    (rest.1, drawn.1 :: rest.2)

theorem sysRngSeed_ne_zero (seed : BitVec 32) : sysRngSeed seed ≠ 0 := by
  unfold sysRngSeed
  split
  next h => exact h
  next => decide

theorem sysRand32_injective : Function.Injective fun state => (sysRand32 state).2 := by
  have hlow := XorShift.left_injective (w := 32) (k := 13) (by decide)
  have hhigh := XorShift.right_injective (w := 32) (k := 17) (by decide)
  have hlast := XorShift.left_injective (w := 32) (k := 5) (by decide)
  exact hlast.comp (hhigh.comp hlow)

theorem sysRand32_ne_zero {state : BitVec 32} (h : state ≠ 0) : (sysRand32 state).2 ≠ 0 := by
  intro hzero
  have hfixed : (sysRand32 0).2 = 0 := by decide
  exact h (sysRand32_injective (hzero.trans hfixed.symm))

theorem rngRun_ne_zero (calls : List RngCall) {state : BitVec 32} (h : state ≠ 0) :
    (rngRun state calls).1 ≠ 0 ∧ 0 ∉ (rngRun state calls).2 := by
  induction calls generalizing state with
  | nil => exact ⟨h, List.not_mem_nil⟩
  | cons call calls ih =>
    cases call with
    | seed s => exact ih (sysRngSeed_ne_zero s)
    | rand32 =>
      have hdrawn := sysRand32_ne_zero h
      obtain ⟨hstate, hrest⟩ := ih hdrawn
      refine ⟨hstate, fun hmem => ?_⟩
      rcases List.mem_cons.mp hmem with heq | hmem
      · exact hdrawn heq.symm
      · exact hrest hmem

theorem rngRun_injective (n : ℕ) :
    Function.Injective fun state => (rngRun state (List.replicate n .rand32)).1 := by
  induction n with
  | zero => exact fun _ _ h => h
  | succ n ih => exact ih.comp sysRand32_injective

/-- The generator never gets stuck at zero, and no two of its streams merge. -/
theorem rng_never_stuck :
    (∀ calls, (rngRun rngDefault calls).1 ≠ 0 ∧ 0 ∉ (rngRun rngDefault calls).2) ∧
      Function.Injective (fun state => (sysRand32 state).2) ∧
      ∀ n, Function.Injective fun state => (rngRun state (List.replicate n .rand32)).1 :=
  ⟨fun calls => rngRun_ne_zero calls (by decide), sysRand32_injective, rngRun_injective⟩

end Leg

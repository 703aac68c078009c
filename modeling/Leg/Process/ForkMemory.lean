import Leg.Lib.ByteMemory
import Leg.Process.ForkReach
import Leg.Process.TableIntegrity

/-! `process_fork` with the bytes of the pages it copies, and what the two processes see of each
other afterwards. Memory is indexed by physical address; the tables stay beside it. -/
namespace Leg
open Runs Slots

section Model
variable (kernelPhysBase : ℕ) (tr : ℕ → Option ℕ)

/-- The loop of `memcpy` over `n` bytes; `tr` is the kernel's translation, and a `none` is an
access to an address that is not mapped. -/
def kernelCopyLoop (dst src : ℕ) : (n : ℕ) → Memory → Option Memory
  | 0, m => some m
  | n + 1, m => do
    let d ← tr dst
    let s ← tr src
    kernelCopyLoop (dst + 1) (src + 1) n (Function.update m d (m s))

/-- `memcpy` in the kernel. -/
def kernelMemcpy (dst src n : ℕ) (m : Memory) : Option Memory :=
  if dst = src then some m else kernelCopyLoop tr dst src n m

/-- The inner loop of `process_fork` over `k` entries from entry `i` on. -/
def forkPagesMem (mb srcPt dstPt : ℕ) : (k i : ℕ) → Vm → Memory → Option (Vm × Memory × Bool)
  | 0, _, vm, m => some (vm, m, true)
  | k + 1, i, vm, m =>
    if entryType (vm.l2 srcPt i) ≠ l2SmallPage then forkPagesMem mb srcPt dstPt k (i + 1) vm m
    else
      let srcPa := l2Address (vm.l2 srcPt i)
      let (vm, dstPa) := vm.pageAlloc
      if dstPa = 0 then some (vm, m, false)
      else do
        let m ← kernelMemcpy tr (physToVirt kernelPhysBase dstPa) (physToVirt kernelPhysBase srcPa)
          pageSize m
        forkPagesMem mb srcPt dstPt k (i + 1)
          (vm.mmuMapPage dstPt (mb <<< 20 ||| i <<< 12) dstPa) m

/-- The outer loop of `process_fork` over `k` slots from slot `mb` on. -/
def forkTablesMem (parentPgd childPgd : ℕ) :
    (k mb : ℕ) → Vm → Memory → Option (Vm × Memory × Bool)
  | 0, _, vm, m => some (vm, m, true)
  | k + 1, mb, vm, m =>
    if entryType (vm.l1 parentPgd mb) ≠ l1PageTable then
      forkTablesMem parentPgd childPgd k (mb + 1) vm m
    else do
      let srcPt := physToVirt kernelPhysBase (l1Address (vm.l1 parentPgd mb))
      let (vm, dstPt) ← vm.mmuAllocL2Table
      if dstPt = 0 then return (vm, m, false)
      let vm := vm.mmuAttachL2 kernelPhysBase childPgd mb dstPt
      let (vm, m, ok) ← forkPagesMem kernelPhysBase tr mb srcPt dstPt l2Entries 0 vm m
      if ok then forkTablesMem parentPgd childPgd k (mb + 1) vm m else return (vm, m, false)

/-- The physical address the process `pgd` accesses at `va`. -/
def userAddr (vm : Vm) (pgd va : ℕ) : Option ℕ :=
  if va < procUserVaTop then
    (pageAt kernelPhysBase vm pgd (va >>> 20) (l2Idx va)).map fun pa => pa + va % pageSize
  else none

/-- One byte that user code writes; a write that faults changes nothing. -/
def userWrite (vm : Vm) (pgd : ℕ) (m : Memory) (w : ℕ × UInt8) : Memory :=
  match userAddr kernelPhysBase vm pgd w.1 with
  | some pa => Function.update m pa w.2
  | none => m

def userWrites (vm : Vm) (pgd : ℕ) (ws : List (ℕ × UInt8)) (m : Memory) : Memory :=
  ws.foldl (userWrite kernelPhysBase vm pgd) m

end Model

section Copy
variable {tr : ℕ → Option ℕ}

/-- Where both ranges are mapped in order and do not overlap, `memcpy` copies. -/
theorem kernelCopyLoop_eq (n : ℕ) {dst src d s : ℕ} {m : Memory}
    (hdst : ∀ b < n, tr (dst + b) = some (d + b)) (hsrc : ∀ b < n, tr (src + b) = some (s + b))
    (hapart : d + n ≤ s ∨ s + n ≤ d) : kernelCopyLoop tr dst src n m = some (m.copy d s n) := by
  induction n generalizing dst src d s m with
  | zero =>
    refine congrArg some (funext fun a => ?_)
    simp [Memory.copy, Memory.put]
  | succ n ih =>
    have hd := hdst 0 (by omega)
    have hs := hsrc 0 (by omega)
    rw [Nat.add_zero, Nat.add_zero] at hd hs
    simp only [kernelCopyLoop, hd, hs, Option.bind_eq_bind, Option.bind_some]
    rw [ih (d := d + 1) (s := s + 1) (fun b hb => ?_) (fun b hb => ?_) (by omega)]
    · refine congrArg some (funext fun a => ?_)
      simp only [Memory.copy, Memory.put]
      by_cases ha : a = d
      · subst ha
        rw [if_neg (by omega), if_pos (by omega), Function.update_self, Nat.sub_self, Nat.add_zero]
      · by_cases hin : d + 1 ≤ a ∧ a < d + 1 + n
        · rw [if_pos hin, if_pos (by omega), Function.update_of_ne (by omega),
            show s + 1 + (a - (d + 1)) = s + (a - d) by omega]
        · rw [if_neg hin, if_neg (by omega), Function.update_of_ne ha]
    · rw [Nat.add_assoc, Nat.add_comm 1 b, hdst (b + 1) (by omega), Nat.add_assoc, Nat.add_comm 1 b]
    · rw [Nat.add_assoc, Nat.add_comm 1 b, hsrc (b + 1) (by omega), Nat.add_assoc, Nat.add_comm 1 b]

end Copy

section Projection
variable {kpb : ℕ} {tr : ℕ → Option ℕ}

end Projection

end Leg

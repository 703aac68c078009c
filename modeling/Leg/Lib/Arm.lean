import Mathlib.Algebra.GroupWithZero.Nat
import Mathlib.Data.List.FinRange
import Mathlib.Logic.Function.Basic

/-! Straight-line code of the 32-bit ARM architecture over a memory of words: the core
registers with their banked copies, the status registers and the VFP registers, and what
a call of a procedure-call-standard function may change. Branches are left to the
program the blocks are part of. -/
namespace Leg.Arm

/-- There are thirteen general registers. -/
instance neZero_registers : NeZero 13 := ⟨by decide⟩

/-- Wrap to the width of a register. -/
def wrap (n : ℕ) : ℕ := n % 4294967296

theorem wrap_of_lt {n : ℕ} (h : n < 4294967296) : wrap n = n := Nat.mod_eq_of_lt h

abbrev usrMode : ℕ := 0x10
abbrev irqMode : ℕ := 0x12
abbrev svcMode : ℕ := 0x13
abbrev sysMode : ℕ := 0x1F

/-- The copies of `sp`, `lr` and `spsr`; user and System mode share theirs. -/
inductive Bank where
  | usr
  | irq
  | svc
  deriving DecidableEq

namespace Psr

def mode (w : ℕ) : ℕ := w % 32

def setMode (w m : ℕ) : ℕ := w / 32 * 32 + m % 32

/-- Set the I bit. -/
def maskIrq (w : ℕ) : ℕ := if w / 128 % 2 = 0 then w + 128 else w

def unmaskIrq (w : ℕ) : ℕ := if w / 128 % 2 = 0 then w else w - 128

def setFlags (w nzcv : ℕ) : ℕ := w % 268435456 + nzcv % 16 * 268435456

/-- The Z flag. -/
def zero (w : ℕ) : Prop := w / 1073741824 % 2 = 1

instance (w : ℕ) : Decidable (zero w) := inferInstanceAs (Decidable (_ = 1))

def bank (w : ℕ) : Bank :=
  if mode w = irqMode then .irq else if mode w = svcMode then .svc else .usr

theorem mode_setMode (w m : ℕ) : mode (setMode w m) = m % 32 := by
  unfold mode setMode
  omega

@[simp] theorem mode_svcMode (w : ℕ) : mode (setMode w svcMode) = svcMode := mode_setMode w svcMode

@[simp] theorem mode_maskIrq (w : ℕ) : mode (maskIrq w) = mode w := by
  unfold mode maskIrq
  split <;> omega

@[simp] theorem mode_unmaskIrq (w : ℕ) : mode (unmaskIrq w) = mode w := by
  unfold mode unmaskIrq
  split <;> omega

@[simp] theorem mode_setFlags (w k : ℕ) : mode (setFlags w k) = mode w := by
  unfold mode setFlags
  omega

theorem bank_of_mode {w m : ℕ} (h : mode w = m) :
    bank w = if m = irqMode then .irq else if m = svcMode then .svc else .usr := by
  rw [bank, h]

@[simp] theorem bank_irqMode (w : ℕ) : bank (setMode w irqMode) = .irq :=
  bank_of_mode (mode_setMode w irqMode)

@[simp] theorem bank_svcMode (w : ℕ) : bank (setMode w svcMode) = .svc :=
  bank_of_mode (mode_setMode w svcMode)

@[simp] theorem bank_sysMode (w : ℕ) : bank (setMode w sysMode) = .usr :=
  bank_of_mode (mode_setMode w sysMode)

@[simp] theorem bank_maskIrq (w : ℕ) : bank (maskIrq w) = bank w := by
  simp only [bank, mode_maskIrq]

@[simp] theorem bank_unmaskIrq (w : ℕ) : bank (unmaskIrq w) = bank w := by
  simp only [bank, mode_unmaskIrq]

@[simp] theorem bank_setFlags (w k : ℕ) : bank (setFlags w k) = bank w := by
  simp only [bank, mode_setFlags]

theorem zero_setFlags (w k : ℕ) : zero (setFlags w k) ↔ k / 4 % 2 = 1 := by
  unfold zero setFlags
  omega

end Psr

/-- The flags of the comparison `n - k`, as the four bits NZCV. -/
def cmpFlags (n k : ℕ) : ℕ :=
  let d := wrap (n + (4294967296 - k))
  let negative := d / 2147483648 % 2
  let overflow := if n / 2147483648 % 2 ≠ k / 2147483648 % 2 ∧ negative ≠ n / 2147483648 % 2
    then 1 else 0
  8 * negative + 4 * (if n = k then 1 else 0) + 2 * (if k ≤ n then 1 else 0) + overflow

theorem zero_cmpFlags (w n k : ℕ) : Psr.zero (Psr.setFlags w (cmpFlags n k)) ↔ n = k := by
  rw [Psr.zero_setFlags]
  unfold cmpFlags
  dsimp only
  have hd := Nat.mod_lt (wrap (n + (4294967296 - k)) / 2147483648) (by decide : 0 < 2)
  generalize wrap (n + (4294967296 - k)) / 2147483648 % 2 = d at hd ⊢
  split_ifs <;> simp_all <;> omega

/-- A memory that is accessed by words. -/
class WordMemory (μ : Type*) where
  load : μ → ℕ → ℕ
  store : μ → ℕ → ℕ → μ

export WordMemory (load store)

section Memory
variable {μ : Type*} [WordMemory μ]

/-- The `n` words from `a` upward. -/
def loadList (m : μ) (a n : ℕ) : List ℕ := (List.range n).map fun i => load m (wrap (a + 4 * i))

theorem loadList_succ (m : μ) (a n : ℕ) :
    loadList m a (n + 1) = load m (wrap a) :: loadList m (a + 4) n := by
  simp only [loadList, List.range_succ_eq_map, List.map_cons, List.map_map, Nat.mul_zero,
    Nat.add_zero, List.cons.injEq, true_and]
  exact List.map_congr_left fun i _ => by
    rw [Function.comp_apply, Nat.succ_eq_add_one, Nat.mul_add, Nat.add_right_comm, Nat.add_assoc]

/-- Store the words one after the other from `a` upward. -/
def storeList (m : μ) (a : ℕ) : List ℕ → μ
  | [] => m
  | w :: ws => storeList (store m (wrap a) w) (a + 4) ws

theorem loadList_one (m : μ) (a : ℕ) : loadList m a 1 = [load m (wrap a)] := rfl

theorem storeList_one (m : μ) (a w : ℕ) : storeList m a [w] = store m (wrap a) w := rfl

/-- A property that a store at each of the addresses keeps. -/
theorem storeList_keeps {P : μ → Prop} {S : ℕ → Prop} (hP : ∀ m b w, S b → P m → P (store m b w))
    {m : μ} {a : ℕ} {ws : List ℕ} (hS : ∀ i < ws.length, S (wrap (a + 4 * i))) (hm : P m) :
    P (storeList m a ws) := by
  induction ws generalizing m a with
  | nil => exact hm
  | cons w ws ih =>
    refine ih (fun i hi => ?_) (hP m _ w ?_ hm)
    · have h := hS (i + 1) (Nat.succ_lt_succ hi)
      rwa [show a + 4 * (i + 1) = a + 4 + 4 * i by omega] at h
    · simpa using hS 0 (Nat.zero_lt_succ _)

/-- At the addresses in `S` the memory is made of independent cells. -/
structure CellsOn (μ : Type*) [WordMemory μ] (S : ℕ → Prop) : Prop where
  same (m : μ) {a : ℕ} (v : ℕ) : S a → load (store m a v) a = v
  other (m : μ) {a b : ℕ} (v : ℕ) : S a → b ≠ a → load (store m a v) b = load m b

theorem CellsOn.load_storeList {S : ℕ → Prop} (h : CellsOn μ S) {m : μ} {a b : ℕ} {ws : List ℕ}
    (hS : ∀ i < ws.length, S (wrap (a + 4 * i)) ∧ b ≠ wrap (a + 4 * i)) :
    load (storeList m a ws) b = load m b :=
  storeList_keeps (P := fun n => load n b = load m b) (S := fun x => S x ∧ b ≠ x)
    (fun n _ w hx hn => (h.other n w hx.1 hx.2).trans hn) hS rfl

/-- What has been stored word by word is loaded back. -/
theorem CellsOn.load_storeList_get {S : ℕ → Prop} (h : CellsOn μ S) {m : μ} {a : ℕ}
    {ws : List ℕ} (hS : ∀ i < ws.length, S (a + 4 * i)) (hw : a + 4 * ws.length ≤ 4294967296)
    {i : ℕ} (hi : i < ws.length) : load (storeList m a ws) (a + 4 * i) = ws[i] := by
  have hwrap (a j n : ℕ) (hj : j < n) (hn : a + 4 * n ≤ 4294967296) :
      wrap (a + 4 * j) = a + 4 * j := wrap_of_lt (by omega)
  induction ws generalizing m a i with
  | nil => exact absurd hi (Nat.not_lt_zero i)
  | cons w ws ih =>
    rw [List.length_cons] at hw
    have hS' (j : ℕ) (hj : j < ws.length) : S (a + 4 + 4 * j) := by
      have := hS (j + 1) (Nat.succ_lt_succ hj)
      rwa [show a + 4 * (j + 1) = a + 4 + 4 * j by omega] at this
    cases i with
    | zero =>
      have ha : wrap a = a := wrap_of_lt (by omega)
      rw [storeList, ha, Nat.mul_zero, Nat.add_zero, List.getElem_cons_zero]
      rw [h.load_storeList fun j hj => ?_]
      · exact h.same m w (by simpa using hS 0 hi)
      · rw [hwrap (a + 4) j _ hj (by omega)]
        exact ⟨hS' j hj, by omega⟩
    | succ i =>
      rw [storeList, show a + 4 * (i + 1) = a + 4 + 4 * i by omega, List.getElem_cons_succ]
      exact ih hS' (by omega) (Nat.lt_of_succ_lt_succ hi)

theorem CellsOn.loadList_storeList {S : ℕ → Prop} (h : CellsOn μ S) {m : μ} {a : ℕ}
    {ws : List ℕ} (hS : ∀ i < ws.length, S (a + 4 * i)) (hw : a + 4 * ws.length ≤ 4294967296) :
    loadList (storeList m a ws) a ws.length = ws := by
  refine List.ext_getElem (by simp [loadList]) fun i hi hi' => ?_
  simp only [loadList, List.getElem_map, List.getElem_range]
  rw [wrap_of_lt (by omega)]
  exact h.load_storeList_get hS hw hi'

theorem loadList_congr {m m' : μ} {a n : ℕ} (hw : a + 4 * n ≤ 4294967296)
    (h : ∀ i < n, load m (a + 4 * i) = load m' (a + 4 * i)) : loadList m a n = loadList m' a n := by
  refine List.map_congr_left fun i hi => ?_
  have hi' := List.mem_range.mp hi
  rw [wrap_of_lt (by omega)]
  exact h i hi'

end Memory

/-- The processor's registers and its memory. In a block of code, `pc` is not looked at:
it holds the address where user code goes on. -/
structure Cpu (μ : Type*) where
  r : Fin 13 → ℕ
  sp : Bank → ℕ
  lr : Bank → ℕ
  spsr : Bank → ℕ
  pc : ℕ
  cpsr : ℕ
  fpscr : ℕ
  /-- `d0` to `d31`, the low word of each first. -/
  vfp : Fin 64 → ℕ
  mem : μ

inductive Reg where
  | r (i : Fin 13)
  | sp
  | lr

inductive Instr where
  | mov (d n : Reg)
  /-- `ldr d, =v`. -/
  | ldrLit (d : Reg) (v : ℕ)
  | add (d n : Reg) (k : ℕ)
  | sub (d n : Reg) (k : ℕ)
  | and (d n : Reg) (k : ℕ)
  | cmp (n : Reg) (k : ℕ)
  /-- `ldr d, [n, #k]`. -/
  | ldr (d n : Reg) (k : ℕ)
  /-- `ldr d, [n, #-k]`. -/
  | ldrBelow (d n : Reg) (k : ℕ)
  | str (d n : Reg) (k : ℕ)
  | push (rs : List Reg)
  | pop (rs : List Reg)
  | ldm (n : Reg) (rs : List Reg)
  | stm (n : Reg) (rs : List Reg)
  /-- `vldmia n, {…}` of `count` registers from `d[first]`, with or without writeback. -/
  | vldm (n : Reg) (writeback : Bool) (first count : ℕ)
  | vstm (n : Reg) (writeback : Bool) (first count : ℕ)
  | mrsSpsr (d : Reg)
  | msrSpsr (n : Reg)
  | vmrs (d : Reg)
  | vmsr (n : Reg)
  | cps (mode : ℕ)
  | cpsie
  | cpsid

section Semantics
variable {μ : Type*} [WordMemory μ]

namespace Cpu

@[simp] def bank (c : Cpu μ) : Bank := Psr.bank c.cpsr

@[simp] def get (c : Cpu μ) : Reg → ℕ
  | .r i => c.r i
  | .sp => c.sp c.bank
  | .lr => c.lr c.bank

@[simp] def set (c : Cpu μ) : Reg → ℕ → Cpu μ
  | .r i, v => { c with r := Function.update c.r i v }
  | .sp, v => { c with sp := Function.update c.sp c.bank v }
  | .lr, v => { c with lr := Function.update c.lr c.bank v }

/-- Give the registers of a list the values of another. -/
@[simp] def setList (c : Cpu μ) : List Reg → List ℕ → Cpu μ
  | r :: rs, v :: vs => (c.set r v).setList rs vs
  | _, _ => c

/-- The words of `count` VFP registers from `d[first]`. -/
def vfpWords (c : Cpu μ) (first count : ℕ) : List ℕ :=
  (List.range (2 * count)).map fun j => if h : 2 * first + j < 64 then c.vfp ⟨_, h⟩ else 0

/-- The VFP registers when `count` of them from `d[first]` are loaded from `a`. -/
def vfpLoaded (c : Cpu μ) (a first count : ℕ) (i : Fin 64) : ℕ :=
  if 2 * first ≤ i.val ∧ i.val < 2 * (first + count)
  then load c.mem (wrap (a + 4 * (i.val - 2 * first))) else c.vfp i

@[simp] def writeback (c : Cpu μ) (n : Reg) (on : Bool) (v : ℕ) : Cpu μ :=
  if on then c.set n v else c

@[simp] def exec (c : Cpu μ) : Instr → Cpu μ
  | .mov d n => c.set d (c.get n)
  | .ldrLit d v => c.set d v
  | .add d n k => c.set d (wrap (c.get n + k))
  | .sub d n k => c.set d (wrap (c.get n + (4294967296 - k)))
  | .and d n k => c.set d (c.get n &&& k)
  | .cmp n k => { c with cpsr := Psr.setFlags c.cpsr (cmpFlags (c.get n) k) }
  | .ldr d n k => c.set d (load c.mem (wrap (c.get n + k)))
  | .ldrBelow d n k => c.set d (load c.mem (wrap (c.get n + (4294967296 - k))))
  | .str d n k => { c with mem := store c.mem (wrap (c.get n + k)) (c.get d) }
  | .push rs =>
    let a := wrap (c.get .sp + (4294967296 - 4 * rs.length))
    { c with mem := storeList c.mem a (rs.map c.get) }.set .sp a
  | .pop rs =>
    let ws := loadList c.mem (c.get .sp) rs.length
    (c.set .sp (wrap (c.get .sp + 4 * rs.length))).setList rs ws
  | .ldm n rs => c.setList rs (loadList c.mem (c.get n) rs.length)
  | .stm n rs => { c with mem := storeList c.mem (c.get n) (rs.map c.get) }
  | .vldm n on first count =>
    ({ c with vfp := c.vfpLoaded (c.get n) first count } : Cpu μ).writeback n on
      (wrap (c.get n + 8 * count))
  | .vstm n on first count =>
    ({ c with mem := storeList c.mem (c.get n) (c.vfpWords first count) } : Cpu μ).writeback n on
      (wrap (c.get n + 8 * count))
  | .mrsSpsr d => c.set d (c.spsr c.bank)
  | .msrSpsr n => { c with spsr := Function.update c.spsr c.bank (c.get n) }
  | .vmrs d => c.set d c.fpscr
  | .vmsr n => { c with fpscr := c.get n }
  | .cps mode => { c with cpsr := Psr.setMode c.cpsr mode }
  | .cpsie => { c with cpsr := Psr.unmaskIrq c.cpsr }
  | .cpsid => { c with cpsr := Psr.maskIrq c.cpsr }

/-- A block, from its first instruction to its last. -/
def run (c : Cpu μ) (is : List Instr) : Cpu μ := is.foldl exec c

@[simp] theorem run_nil (c : Cpu μ) : c.run [] = c := rfl

@[simp] theorem run_cons (c : Cpu μ) (i : Instr) (is : List Instr) :
    c.run (i :: is) = (c.exec i).run is := rfl

theorem run_append (c : Cpu μ) (is js : List Instr) : c.run (is ++ js) = (c.run is).run js :=
  List.foldl_append

/-- An IRQ is taken: the preferred return address is one word further on. -/
def takeIrq (c : Cpu μ) : Cpu μ :=
  { c with
    spsr := Function.update c.spsr .irq c.cpsr
    lr := Function.update c.lr .irq (wrap (c.pc + 4))
    cpsr := Psr.setMode (Psr.maskIrq c.cpsr) irqMode }

/-- An SVC is taken, `pc` being the address of the instruction after it. -/
def takeSvc (c : Cpu μ) : Cpu μ :=
  { c with
    spsr := Function.update c.spsr .svc c.cpsr
    lr := Function.update c.lr .svc c.pc
    cpsr := Psr.setMode (Psr.maskIrq c.cpsr) svcMode }

/-- `movs pc, lr`. -/
def exceptionReturn (c : Cpu μ) : Cpu μ :=
  { c with pc := c.get .lr, cpsr := c.spsr c.bank }

omit [WordMemory μ] in
theorem exceptionReturn_mem (c : Cpu μ) : c.exceptionReturn.mem = c.mem := rfl

omit [WordMemory μ] in
theorem exceptionReturn_sp (c : Cpu μ) : c.exceptionReturn.sp = c.sp := rfl

end Cpu

/-- What a call leaves in the registers a callee may change. -/
structure Clobber where
  r : Fin 13 → ℕ
  lr : ℕ
  nzcv : ℕ

/-- The registers a callee may change, `r0` apart: there its result is. -/
def scratch (i : Fin 13) : Prop := i = 1 ∨ i = 2 ∨ i = 3 ∨ i = 12

instance (i : Fin 13) : Decidable (scratch i) := inferInstanceAs (Decidable (_ ∨ _))

/-- The return from a call that obeys the procedure call standard. -/
def Cpu.afterCall (c : Cpu μ) (h : Clobber) (r0 : ℕ) (mem : μ) : Cpu μ :=
  { c with
    r := fun i => if i = 0 then r0 else if scratch i then h.r i else c.r i
    lr := Function.update c.lr c.bank h.lr
    cpsr := Psr.setFlags c.cpsr h.nzcv
    mem := mem }

end Semantics

end Leg.Arm

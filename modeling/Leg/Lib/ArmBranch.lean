import Mathlib.Tactic.Ring
import Mathlib.Logic.Relation
import Leg.Lib.Arm

/-! Programs with labels and conditional branches over the state of the straight-line
code, the data-processing instructions taking a shifted second operand, and two-word
arithmetic: what shifts, comparisons and borrows do to a number kept in two registers. -/
namespace Leg.Arm

namespace Reg

abbrev r0 : Reg := .r 0
abbrev r1 : Reg := .r 1
abbrev r2 : Reg := .r 2
abbrev r3 : Reg := .r 3
abbrev r4 : Reg := .r 4
abbrev r5 : Reg := .r 5
abbrev r6 : Reg := .r 6
abbrev r7 : Reg := .r 7
abbrev r8 : Reg := .r 8
abbrev r9 : Reg := .r 9

end Reg

/-- The second operand of a data-processing instruction. -/
inductive Operand where
  | imm (k : ℕ)
  | reg (n : Reg)
  | lsl (n : Reg) (k : ℕ)
  | lsr (n : Reg) (k : ℕ)

/-- The conditions a branch may carry. -/
inductive Cond where
  | ne
  | hi
  | lo

inductive Op where
  | mov (d : Reg) (o : Operand)
  | orr (d n : Reg) (o : Operand)
  | cmp (n : Reg) (o : Operand)
  | subs (d n : Reg) (o : Operand)
  | sbc (d n : Reg) (o : Operand)
  | push (rs : List Reg)

inductive Line where
  | op (i : Op)
  | label (l : ℕ)
  | b (c : Cond) (l : ℕ)
  /-- `pop {rs, pc}`. -/
  | popPc (rs : List Reg)

/-- The C flag. -/
def Psr.carry (w : ℕ) : Prop := w / 536870912 % 2 = 1

instance (w : ℕ) : Decidable (Psr.carry w) := inferInstanceAs (Decidable (_ = 1))

theorem carry_cmpFlags (w n k : ℕ) : Psr.carry (Psr.setFlags w (cmpFlags n k)) ↔ k ≤ n := by
  have hf : Psr.carry (Psr.setFlags w (cmpFlags n k)) ↔ cmpFlags n k / 2 % 2 = 1 := by
    unfold Psr.carry Psr.setFlags
    omega
  rw [hf]
  unfold cmpFlags
  dsimp only
  generalize wrap (n + (4294967296 - k)) / 2147483648 % 2 = d
  split_ifs <;> omega

section Semantics
variable {μ : Type*} [WordMemory μ]

namespace Cpu

@[simp] def operand (c : Cpu μ) : Operand → ℕ
  | .imm k => k
  | .reg n => c.get n
  | .lsl n k => wrap (c.get n * 2 ^ k)
  | .lsr n k => c.get n / 2 ^ k

@[simp] def execOp (c : Cpu μ) : Op → Cpu μ
  | .mov d o => c.set d (c.operand o)
  | .orr d n o => c.set d (c.get n ||| c.operand o)
  | .cmp n o => { c with cpsr := Psr.setFlags c.cpsr (cmpFlags (c.get n) (c.operand o)) }
  | .subs d n o =>
    { c with cpsr := Psr.setFlags c.cpsr (cmpFlags (c.get n) (c.operand o)) }.set d
      (wrap (c.get n + (4294967296 - c.operand o)))
  | .sbc d n o =>
    c.set d (wrap (c.get n + (4294967295 - c.operand o) + if Psr.carry c.cpsr then 1 else 0))
  | .push rs => c.exec (.push rs)

/-- Whether the flags meet the condition. -/
@[simp] def meets (c : Cpu μ) : Cond → Prop
  | .ne => ¬Psr.zero c.cpsr
  | .hi => Psr.carry c.cpsr ∧ ¬Psr.zero c.cpsr
  | .lo => ¬Psr.carry c.cpsr

instance (c : Cpu μ) : (k : Cond) → Decidable (c.meets k)
  | .ne => inferInstanceAs (Decidable (¬_))
  | .hi => inferInstanceAs (Decidable (_ ∧ _))
  | .lo => inferInstanceAs (Decidable (¬_))

/-- `pop {rs, pc}`: the words go to the registers, the last one to the program counter. -/
def popPc (c : Cpu μ) (rs : List Reg) : Cpu μ :=
  let ws := loadList c.mem (c.get .sp) (rs.length + 1)
  { (c.set .sp (wrap (c.get .sp + 4 * (rs.length + 1)))).setList rs ws with
    pc := ws.getD rs.length 0 }

end Cpu

/-- Where a program stands: at a line, or back in its caller. -/
structure Point (μ : Type*) where
  line : Option ℕ
  cpu : Cpu μ

/-- The line that bears a label. -/
def target (p : List Line) (l : ℕ) : ℕ :=
  p.findIdx fun i => match i with
    | .label k => k == l
    | _ => false

/-- One line of the program. -/
def step (p : List Line) (s : Point μ) : Point μ :=
  match s.line with
  | none => s
  | some i =>
    match p[i]? with
    | none => s
    | some (.op o) => ⟨some (i + 1), s.cpu.execOp o⟩
    | some (.label _) => ⟨some (i + 1), s.cpu⟩
    | some (.b c l) =>
      if s.cpu.meets c then ⟨some (target p l), s.cpu⟩ else ⟨some (i + 1), s.cpu⟩
    | some (.popPc rs) => ⟨none, s.cpu.popPc rs⟩

/-- The program leads from one point to another. -/
def Reaches (p : List Line) (s t : Point μ) : Prop := ∃ k, (step p)^[k] s = t

theorem Reaches.refl (p : List Line) (s : Point μ) : Reaches p s s := ⟨0, rfl⟩

theorem Reaches.of_step {p : List Line} {s t : Point μ} (h : step p s = t) : Reaches p s t := ⟨1, h⟩

theorem Reaches.trans {p : List Line} {s t u : Point μ} (h : Reaches p s t) (k : Reaches p t u) :
    Reaches p s u := by
  obtain ⟨m, rfl⟩ := h
  obtain ⟨n, rfl⟩ := k
  exact ⟨n + m, Function.iterate_add_apply _ n m s⟩

section Rules
variable {p : List Line} {i : ℕ} {c : Cpu μ}

theorem reaches_op {o : Op} (h : p[i]? = some (.op o)) :
    Reaches p ⟨some i, c⟩ ⟨some (i + 1), c.execOp o⟩ := by
  apply Reaches.of_step
  simp only [step, h]

theorem reaches_label {l : ℕ} (h : p[i]? = some (.label l)) :
    Reaches p ⟨some i, c⟩ ⟨some (i + 1), c⟩ := by
  apply Reaches.of_step
  simp only [step, h]

theorem reaches_taken {k : Cond} {l : ℕ} (h : p[i]? = some (.b k l)) (hk : c.meets k) :
    Reaches p ⟨some i, c⟩ ⟨some (target p l), c⟩ := by
  apply Reaches.of_step
  simp only [step, h, if_pos hk]

theorem reaches_not_taken {k : Cond} {l : ℕ} (h : p[i]? = some (.b k l)) (hk : ¬c.meets k) :
    Reaches p ⟨some i, c⟩ ⟨some (i + 1), c⟩ := by
  apply Reaches.of_step
  simp only [step, h, if_neg hk]

theorem reaches_popPc (rs : List Reg) (h : p[i]? = some (.popPc rs)) :
    Reaches p ⟨some i, c⟩ ⟨none, c.popPc rs⟩ := by
  apply Reaches.of_step
  simp only [step, h]

/-- Operations in a row are carried out one after the other. -/
theorem reaches_ops (os : List Op) {rest : List Line} (h : p.drop i = os.map Line.op ++ rest) :
    Reaches p ⟨some i, c⟩ ⟨some (i + os.length), os.foldl Cpu.execOp c⟩ := by
  induction os generalizing i c with
  | nil => exact Reaches.refl p _
  | cons o os ih =>
    have h0 : p[i]? = some (.op o) := by
      rw [← Nat.add_zero i, ← List.getElem?_drop, h]
      rfl
    have hs : p.drop (i + 1) = os.map Line.op ++ rest := by
      rw [← List.drop_drop, h]
      rfl
    have hlen : i + (o :: os).length = i + 1 + os.length := by
      rw [List.length_cons]
      omega
    rw [hlen]
    exact (reaches_op h0).trans (ih hs)

end Rules

omit [WordMemory μ] in
/-- Loading a list of registers leaves the others. -/
theorem Cpu.setList_r {c : Cpu μ} {rs : List Reg} {ws : List ℕ} {i : Fin 13}
    (h : ∀ r ∈ rs, r ≠ .r i) : (c.setList rs ws).r i = c.r i := by
  induction rs generalizing c ws with
  | nil => rfl
  | cons r rs ih =>
    cases ws with
    | nil => rfl
    | cons w ws =>
      have hr : (c.set r w).r i = c.r i := by
        cases r with
        | r j =>
          have hj : i ≠ j := fun e => h (.r j) List.mem_cons_self (congrArg Reg.r e.symm)
          exact Function.update_of_ne hj w c.r
        | sp => rfl
        | lr => rfl
      exact (ih fun x hx => h x (List.mem_cons_of_mem r hx)).trans hr

theorem Cpu.popPc_r {c : Cpu μ} {rs : List Reg} {i : Fin 13} (h : ∀ r ∈ rs, r ≠ .r i) :
    (c.popPc rs).r i = c.r i := Cpu.setList_r h

end Semantics

/-- A memory with a word at each address. -/
instance wordCells : WordMemory (ℕ → ℕ) where
  load m a := m a
  store m a v := Function.update m a v

section TwoWords

/-- The number kept in two registers. -/
def join (lo hi : ℕ) : ℕ := hi * 4294967296 + lo

/-- Shifting both words left by one and a bit in at the bottom. -/
theorem join_shift {lo hi b : ℕ} (hl : lo < 4294967296) (hb : b < 2) :
    join (wrap (lo * 2 ^ 1) ||| b) (wrap (hi * 2 ^ 1) ||| lo / 2 ^ 31) =
      (2 * join lo hi + b) % 18446744073709551616 := by
  have hor (n c : ℕ) (hc : c < 2) : wrap (n * 2 ^ 1) ||| c = n % 2147483648 * 2 + c := by
    have hw : wrap (n * 2 ^ 1) = 2 ^ 1 * (n % 2147483648) := by
      unfold wrap
      omega
    rw [hw, ← Nat.two_pow_add_eq_or_of_lt (by omega : c < 2 ^ 1)]
    omega
  rw [hor lo b hb, hor hi (lo / 2 ^ 31) (by omega)]
  unfold join
  omega

theorem join_le_join {lo hi lo' hi' : ℕ} (hl : lo < 4294967296) (hl' : lo' < 4294967296) :
    join lo hi ≤ join lo' hi' ↔ hi < hi' ∨ hi = hi' ∧ lo ≤ lo' := by
  unfold join
  omega

theorem join_sub {lo hi lo' hi' : ℕ} (hl : lo < 4294967296) (hh : hi < 4294967296)
    (hl' : lo' < 4294967296) (hh' : hi' < 4294967296) (hle : join lo' hi' ≤ join lo hi) :
    join (wrap (lo + (4294967296 - lo')))
      (wrap (hi + (4294967295 - hi') + if lo' ≤ lo then 1 else 0)) = join lo hi - join lo' hi' := by
  unfold join wrap at *
  split_ifs <;> omega

end TwoWords
end Leg.Arm

import Leg.Lib.Arm
import Leg.Process.Traps

/-! The kernel's memory as the assembly code sees it, by words: the global `current_proc`,
the process structs at the offsets `trampolines.s` and `context_switch.s` hard-code, and
plain words elsewhere, the exception stacks among them. -/
namespace Leg
open Arm

/-- The words of `cpu_ctx_t`, from `ctx + 0` upward. -/
def CpuCtx.word (c : CpuCtx) (i : ℕ) : ℕ :=
  if h : i < 13 then c.r ⟨i, h⟩
  else if i = 13 then c.sp
  else if i = 14 then c.lr
  else if i = 15 then c.pc
  else if i = 16 then c.cpsr
  else if i = 17 then c.fpscr
  else if h : i - 18 < 64 then c.vfp ⟨i - 18, h⟩
  else 0

def CpuCtx.ofWords (w : ℕ → ℕ) : CpuCtx where
  r i := w i
  sp := w 13
  lr := w 14
  pc := w 15
  cpsr := w 16
  fpscr := w 17
  vfp i := w (18 + i)

@[simp] theorem CpuCtx.ofWords_word (c : CpuCtx) : ofWords c.word = c := by
  cases c
  simp only [ofWords, word, CpuCtx.mk.injEq, Nat.add_sub_cancel_left]
  refine ⟨funext fun i => ?_, rfl, rfl, rfl, rfl, rfl, funext fun i => ?_⟩
  · simp
  · have := i.isLt
    simp [show ¬ 18 + i.val < 13 by omega, show 18 + i.val ≠ 13 by omega,
      show 18 + i.val ≠ 14 by omega, show 18 + i.val ≠ 15 by omega,
      show 18 + i.val ≠ 16 by omega, show 18 + i.val ≠ 17 by omega]

theorem CpuCtx.word_ofWords {w : ℕ → ℕ} {i : ℕ} (h : i < 82) : (ofWords w).word i = w i := by
  unfold word ofWords
  split_ifs with h0 h1 h2 h3 h4 h5 h6
  · rfl
  · rw [h1]
  · rw [h2]
  · rw [h3]
  · rw [h4]
  · rw [h5]
  · exact congrArg w (Nat.add_sub_cancel' (by omega))
  · omega

theorem CpuCtx.ofWords_congr {w v : ℕ → ℕ} (h : ∀ i < 82, w i = v i) : ofWords w = ofWords v := by
  simp only [ofWords, CpuCtx.mk.injEq]
  refine ⟨funext fun i => h _ (by omega), h _ (by decide), h _ (by decide), h _ (by decide),
    h _ (by decide), h _ (by decide), funext fun i => h _ (by omega)⟩

namespace Process

/-- The words of `process_t` that assembly code can reach, `suspended` the last. -/
def word (p : Process) (i : ℕ) : ℕ :=
  if i = 0 then p.pid
  else if i = 1 then p.pgd
  else if i = 2 then p.sp
  else if i = 3 then p.entry
  else if i = 86 then p.suspended
  else p.ctx.word (i - 4)

def setWord (p : Process) (i v : ℕ) : Process :=
  if i = 0 then { p with pid := v }
  else if i = 1 then { p with pgd := v }
  else if i = 2 then { p with sp := v }
  else if i = 3 then { p with entry := v }
  else if i = 86 then { p with suspended := v }
  else { p with ctx := CpuCtx.ofWords (Function.update p.ctx.word (i - 4) v) }

theorem word_ctx (p : Process) {i : ℕ} (h : 4 ≤ i ∧ i < 86) : p.word i = p.ctx.word (i - 4) := by
  unfold word
  split_ifs <;> first | rfl | omega

theorem setWord_ctx (p : Process) {i : ℕ} (v : ℕ) (h : 4 ≤ i ∧ i < 86) : p.setWord i v =
    { p with ctx := CpuCtx.ofWords (Function.update p.ctx.word (i - 4) v) } := by
  unfold setWord
  split_ifs <;> first | rfl | omega

theorem word_setWord (p : Process) {i j : ℕ} (v : ℕ) (hi : i < 87) (hj : j < 87) :
    (p.setWord i v).word j = if j = i then v else p.word j := by
  have special (n : ℕ) (hn : n < 87) :
      n = 0 ∨ n = 1 ∨ n = 2 ∨ n = 3 ∨ n = 86 ∨ (4 ≤ n ∧ n < 86) := by omega
  rcases special i hi with rfl | rfl | rfl | rfl | rfl | hc
  case inr.inr.inr.inr.inr =>
    rw [setWord_ctx p v hc]
    rcases special j hj with rfl | rfl | rfl | rfl | rfl | hd
    case inr.inr.inr.inr.inr =>
      rw [word_ctx _ hd, word_ctx _ hd, CpuCtx.word_ofWords (by omega), Function.update_apply]
      exact if_congr (by omega) rfl rfl
    all_goals exact (if_neg (by omega)).symm
  all_goals
    rcases special j hj with rfl | rfl | rfl | rfl | rfl | hd
    case inr.inr.inr.inr.inr =>
      rw [word_ctx _ hd, word_ctx _ hd, if_neg (by omega)]
      rfl
    all_goals rfl

end Process

/-- The IRQ mode's stack pointer of `handle_reset`, which `handle_irq` reloads. -/
def irqStackTop : ℕ := stackBottom - 0x400

/-- The SVC mode's stack pointer that `kboot` gives to `kmain`. -/
def svcStackTop : ℕ := stackBottom - 0x1000

/-- Where the linker put the two globals, and down to where the SVC stack may grow. -/
structure Symbols where
  currentProc : ℕ
  svcSavedLr : ℕ
  stackLow : ℕ
  kernel : procUserVaTop ≤ currentProc ∧ procUserVaTop ≤ svcSavedLr ∧ procUserVaTop ≤ stackLow
  distinct : currentProc ≠ svcSavedLr
  below : currentProc < stackLow ∧ svcSavedLr < stackLow
  stackLow_le : stackLow ≤ svcStackTop

/-- A process struct can be at `p`: aligned as `kmalloc_aligned` is asked to, and clear of
the two globals and the stacks. -/
def Symbols.Placed (L : Symbols) (p : ℕ) : Prop :=
  p % 0x4000 = 0 ∧ procUserVaTop ≤ p ∧ p + 348 ≤ 4294967296 ∧
    (p + 348 ≤ L.stackLow ∨ stackBottom ≤ p) ∧
    ¬ (p ≤ L.currentProc ∧ L.currentProc < p + 348) ∧
    ¬ (p ≤ L.svcSavedLr ∧ L.svcSavedLr < p + 348)

instance (L : Symbols) (p : ℕ) : Decidable (L.Placed p) :=
  inferInstanceAs (Decidable (_ ∧ _))

/-- The struct a word at `a` may belong to. -/
def structBase (a : ℕ) : ℕ := a / 0x4000 * 0x4000

/-- The word at `a` is one of a process struct. -/
def Symbols.InStruct (L : Symbols) (a : ℕ) : Prop :=
  L.Placed (structBase a) ∧ a % 0x4000 < 348 ∧ a % 4 = 0

instance (L : Symbols) (a : ℕ) : Decidable (L.InStruct a) :=
  inferInstanceAs (Decidable (_ ∧ _))

structure KMem (L : Symbols) where
  sched : Sched
  words : ℕ → ℕ

namespace KMem
variable {L : Symbols}

def loadWord (m : KMem L) (a : ℕ) : ℕ :=
  if a = L.currentProc then m.sched.currentProc
  else if L.InStruct a then (m.sched.proc (structBase a)).word (a % 0x4000 / 4)
  else m.words a

def storeWord (m : KMem L) (a v : ℕ) : KMem L :=
  if a = L.currentProc then { m with sched := { m.sched with currentProc := v } }
  else if L.InStruct a then
    { m with sched := m.sched.write (structBase a) fun p => p.setWord (a % 0x4000 / 4) v }
  else { m with words := Function.update m.words a v }

instance : WordMemory (KMem L) := ⟨loadWord, storeWord⟩

/-- No two addresses share a cell. -/
theorem cells : CellsOn (KMem L) fun _ => True where
  same m a v _ := by
    simp only [load, store, loadWord, storeWord]
    split_ifs with hc hs
    · rfl
    · rw [Sched.write_proc_self, Process.word_setWord _ _ (by have := hs.2.1; omega)
        (by have := hs.2.1; omega), if_pos rfl]
    · exact Function.update_self ..
  other m a b v _ hne := by
    simp only [load, store, loadWord, storeWord]
    by_cases ha : a = L.currentProc
    · have hb : b ≠ L.currentProc := ha ▸ hne
      rw [if_pos ha, if_neg hb, if_neg hb]
    by_cases hs : L.InStruct a
    · rw [if_neg ha, if_pos hs]
      split_ifs with hb hbs <;> try rfl
      by_cases hab : structBase b = structBase a
      · have hi : ¬ b % 0x4000 / 4 = a % 0x4000 / 4 := by
          have := hs.2.2
          have := hbs.2.2
          unfold structBase at hab
          omega
        rw [hab, Sched.write_proc_self, Process.word_setWord _ _ (by have := hs.2.1; omega)
          (by have := hbs.2.1; omega), if_neg hi]
      · rw [Sched.write_proc_of_ne _ _ hab]
    · rw [if_neg ha, if_neg hs]
      split_ifs <;> first | rfl | exact Function.update_of_ne hne ..

theorem load_stack (m : KMem L) {a : ℕ} (h : L.stackLow ≤ a ∧ a < stackBottom) :
    load m a = m.words a := by
  have hc : a ≠ L.currentProc := by
    have := L.below.1
    omega
  have hs : ¬ L.InStruct a := fun hs => by
    have hp := hs.1
    have := hs.2.1
    unfold Symbols.Placed structBase at hp
    omega
  simp only [load, loadWord, if_neg hc, if_neg hs]

theorem store_stack (m : KMem L) {a : ℕ} (v : ℕ) (h : L.stackLow ≤ a ∧ a < stackBottom) :
    store m a v = { m with words := Function.update m.words a v } := by
  have hc : a ≠ L.currentProc := by
    have := L.below.1
    omega
  have hs : ¬ L.InStruct a := fun hs => by
    have hp := hs.1
    have := hs.2.1
    unfold Symbols.Placed structBase at hp
    omega
  simp only [store, storeWord, if_neg hc, if_neg hs]

@[simp] theorem load_currentProc (m : KMem L) : load m L.currentProc = m.sched.currentProc :=
  if_pos rfl

@[simp] theorem store_currentProc (m : KMem L) (v : ℕ) :
    store m L.currentProc v = { m with sched := { m.sched with currentProc := v } } := if_pos rfl

theorem inStruct {p k : ℕ} (hp : L.Placed p) (hk : k < 87) :
    L.InStruct (p + 4 * k) ∧ structBase (p + 4 * k) = p ∧ (p + 4 * k) % 0x4000 / 4 = k ∧
      p + 4 * k ≠ L.currentProc := by
  have hp' := hp
  unfold Symbols.Placed at hp'
  have hb : structBase (p + 4 * k) = p := by
    unfold structBase
    omega
  refine ⟨⟨by rwa [hb], by omega, by omega⟩, hb, by omega, by omega⟩

theorem load_struct (m : KMem L) {p k : ℕ} (hp : L.Placed p) (hk : k < 87) :
    load m (p + 4 * k) = (m.sched.proc p).word k := by
  obtain ⟨hs, hb, hi, hc⟩ := inStruct hp hk
  simp only [load, loadWord, if_neg hc, if_pos hs, hb, hi]

theorem store_struct (m : KMem L) {p k : ℕ} (v : ℕ) (hp : L.Placed p) (hk : k < 87) :
    store m (p + 4 * k) v = { m with sched := m.sched.write p fun q => q.setWord k v } := by
  obtain ⟨hs, hb, hi, hc⟩ := inStruct hp hk
  simp only [store, storeWord, if_neg hc, if_pos hs, hb, hi]

theorem svcSavedLr_plain : ¬ L.InStruct L.svcSavedLr ∧ L.svcSavedLr ≠ L.currentProc := by
  refine ⟨fun hs => ?_, L.distinct.symm⟩
  have hp := hs.1
  have := hs.2.1
  unfold Symbols.Placed structBase at hp
  omega

theorem store_svcSavedLr (m : KMem L) (v : ℕ) : store m L.svcSavedLr v =
    { m with words := Function.update m.words L.svcSavedLr v } := by
  simp only [store, storeWord, if_neg svcSavedLr_plain.1, if_neg svcSavedLr_plain.2]

/-- The memory when the context of the process at `p` is the words `w`. -/
def withCtx (m : KMem L) (p : ℕ) (w : ℕ → ℕ) : KMem L :=
  { m with sched := m.sched.write p fun q => { q with ctx := CpuCtx.ofWords w } }

/-- `w` with the words `ws` in place from index `k` upward. -/
def putList (w : ℕ → ℕ) (k : ℕ) (ws : List ℕ) (i : ℕ) : ℕ :=
  if k ≤ i ∧ i < k + ws.length then ws.getD (i - k) 0 else w i

theorem withCtx_self (m : KMem L) (p : ℕ) : m.withCtx p (m.sched.proc p).ctx.word = m := by
  simp only [withCtx, Sched.write, CpuCtx.ofWords_word]
  rw [Function.update_eq_self_iff.mpr rfl]

theorem store_withCtx (m : KMem L) {p : ℕ} (hp : L.Placed p) {w : ℕ → ℕ} {a k : ℕ} (v : ℕ)
    (ha : a = p + 16 + 4 * k) (hk : k < 82) :
    store (m.withCtx p w) a v = m.withCtx p (Function.update w k v) := by
  rw [ha, show p + 16 + 4 * k = p + 4 * (k + 4) by omega, store_struct _ _ hp (by omega)]
  simp only [withCtx, Sched.write, Function.update_self, Function.update_idem]
  rw [Process.setWord_ctx _ _ (by omega), Nat.add_sub_cancel]
  congr 4
  refine CpuCtx.ofWords_congr fun i hi => ?_
  simp only [Function.update_apply, CpuCtx.word_ofWords hi]

theorem storeList_withCtx (m : KMem L) {p : ℕ} (hp : L.Placed p) {ws : List ℕ} {w : ℕ → ℕ}
    {a k : ℕ} (ha : a = p + 16 + 4 * k) (hk : k + ws.length ≤ 82) :
    storeList (m.withCtx p w) a ws = m.withCtx p (putList w k ws) := by
  induction ws generalizing w k a with
  | nil =>
    rw [storeList]
    congr 1
    funext i
    exact (if_neg (by simp)).symm
  | cons v ws ih =>
    rw [List.length_cons] at hk
    have hp' := hp
    unfold Symbols.Placed at hp'
    rw [storeList, store_withCtx m hp (k := k) v (by rw [ha, wrap_of_lt (by omega)]) (by omega),
      ih (k := k + 1) (by omega) (by omega)]
    congr 1
    funext i
    simp only [putList, List.length_cons]
    by_cases hik : i = k
    · subst hik
      simp
    · by_cases h : k + 1 ≤ i ∧ i < k + 1 + ws.length
      · rw [if_pos h, if_pos (by omega), show i - k = i - (k + 1) + 1 by omega, List.getD_cons_succ]
      · rw [if_neg h, if_neg (by omega), Function.update_of_ne hik]

theorem ctxAddr {p : ℕ} (hp : L.Placed p) {o : ℕ} (ho : o < 332) :
    wrap (wrap (p + 16) + o) = p + 16 + o := by
  unfold Symbols.Placed at hp
  rw [wrap_of_lt (n := p + 16) (by omega), wrap_of_lt (by omega)]

theorem ctxBase {p : ℕ} (hp : L.Placed p) : wrap (p + 16) = p + 16 + 4 * 0 := by
  unfold Symbols.Placed at hp
  exact wrap_of_lt (by omega)

theorem ctxHalf {p : ℕ} (hp : L.Placed p) : wrap (p + 16 + 72 + 128) = p + 16 + 4 * 50 := by
  unfold Symbols.Placed at hp
  exact wrap_of_lt (by omega)

theorem load_ctx (m : KMem L) {p : ℕ} (hp : L.Placed p) {a k : ℕ} (ha : a = p + 16 + 4 * k)
    (hk : k < 82) : load m a = (m.sched.proc p).ctx.word k := by
  rw [ha, show p + 16 + 4 * k = p + 4 * (k + 4) by omega, load_struct m hp (by omega),
    Process.word_ctx _ (by omega), Nat.add_sub_cancel]

theorem withCtx_congr (m : KMem L) (p : ℕ) {w : ℕ → ℕ} {c : CpuCtx}
    (h : ∀ i < 82, w i = c.word i) : m.withCtx p w = m.withCtx p c.word := by
  simp only [withCtx, CpuCtx.ofWords_congr h]

end KMem

end Leg

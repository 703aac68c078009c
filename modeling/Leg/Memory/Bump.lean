import Mathlib.Data.List.Pairwise
import Leg.Lib.Runs
import Leg.Word

/-! The bump allocator of `bump.c`, with the blocks it has handed out since its last reset. -/
namespace Leg
open Runs

/-- `early_heap_base`, `early_heap_end` and `early_heap_ptr`. -/
structure EarlyHeap where
  base : ℕ
  stop : ℕ
  ptr : ℕ
  deriving DecidableEq

def earlyMallocInit (base size : ℕ) : EarlyHeap := ⟨base, u32 (base + size), base⟩

namespace EarlyHeap

/-- `early_malloc`: the heap behind it, and the block or null. -/
def earlyMalloc (h : EarlyHeap) (size : ℕ) : EarlyHeap × ℕ :=
  if h.stop < u32 (h.ptr + size) then (h, 0)
  else ({ h with ptr := u32 (h.ptr + size) }, h.ptr)

def earlyMallocReset (h : EarlyHeap) : EarlyHeap := { h with ptr := h.base }

end EarlyHeap

inductive EarlyOp where
  | malloc (size : ℕ)
  | reset
  deriving DecidableEq

/-- A block: its address and the size that was asked for. -/
abbrev EarlyBlock := ℕ × ℕ

/-- The heap and the blocks since the last reset, the latest first. -/
structure EarlyState where
  heap : EarlyHeap
  blocks : List EarlyBlock

def EarlyState.next (s : EarlyState) : EarlyOp → EarlyState
  | .malloc size =>
    let r := s.heap.earlyMalloc size
    ⟨r.1, if r.2 = 0 then s.blocks else (r.2, size) :: s.blocks⟩
  | .reset => ⟨s.heap.earlyMallocReset, []⟩

/-- One call, with a size of 32 bits. -/
def EarlyStep (s : EarlyState) (op : EarlyOp) (t : EarlyState) : Prop :=
  (∀ size, op = .malloc size → size < 4294967296) ∧ s.next op = t

/-- The state behind `early_malloc_init`. -/
def earlyStart (base size : ℕ) : EarlyState := ⟨earlyMallocInit base size, []⟩

/-- The blocks lie inside the region and do not overlap. -/
structure EarlySound (base size : ℕ) (s : EarlyState) : Prop where
  inside : ∀ b ∈ s.blocks, base ≤ b.1 ∧ b.1 + b.2 ≤ base + size
  disjoint : s.blocks.Pairwise fun b c => b.1 + b.2 ≤ c.1 ∨ c.1 + c.2 ≤ b.1

/-- The end of the requested block does not wrap, the wrapped end is behind the region, or the
region ends with the address space. -/
def EndFits (s : EarlyState) : EarlyOp → Prop
  | .malloc size => s.heap.ptr + size < 4294967296 ∨
      s.heap.stop < u32 (s.heap.ptr + size) ∨ s.heap.stop = 0
  | .reset => True

/-- The blocks end at `used`, an address of the region or its end, which the pointer holds modulo
`2^32`. -/
structure EarlyBounded (base size used : ℕ) (s : EarlyState) : Prop where
  start : s.heap.base = base
  stop : s.heap.stop = u32 (base + size)
  low : base ≤ used
  high : used ≤ base + size
  ptr : s.heap.ptr = u32 used
  below : ∀ b ∈ s.blocks, b.1 + b.2 ≤ used

section Run
variable {base size used : ℕ} {s t : EarlyState} {op : EarlyOp}

theorem earlyStart_sound (base size : ℕ) : EarlySound base size (earlyStart base size) :=
  ⟨fun _ hb => absurd hb List.not_mem_nil, .nil⟩

theorem earlyStart_bounded (hbase : base < 4294967296) :
    EarlyBounded base size base (earlyStart base size) :=
  ⟨rfl, rfl, le_refl _, Nat.le_add_right _ _, (u32_of_lt hbase).symm,
    fun _ hb => absurd hb List.not_mem_nil⟩

theorem EarlyBounded.grows (hb : EarlyBounded base size used s) {n : ℕ} (hn : n < 4294967296)
    (hok : EndFits s (.malloc n)) (hroom : ¬ s.heap.stop < u32 (s.heap.ptr + n)) :
    used + n ≤ base + size ∧ u32 (s.heap.ptr + n) = u32 (used + n) := by
  have hlow := hb.low
  have hhigh := hb.high
  rw [EndFits] at hok
  rw [hb.stop, hb.ptr] at hok hroom
  rw [hb.ptr]
  unfold u32 at hok hroom ⊢
  omega

/-- A call whose end fits keeps the blocks sound and below the pointer. -/
theorem earlyStep_keeps (hfits : base + size ≤ 4294967296) (hbase : base < 4294967296)
    (hb : EarlyBounded base size used s) (hs : EarlySound base size s) (hok : EndFits s op)
    (hstep : EarlyStep s op t) :
    (∃ used', EarlyBounded base size used' t) ∧ EarlySound base size t := by
  obtain ⟨hsize, rfl⟩ := hstep
  cases op with
  | reset =>
    have hstart : s.heap.base = u32 base := hb.start.trans (u32_of_lt hbase).symm
    exact ⟨⟨base, hb.start, hb.stop, le_refl _, Nat.le_add_right _ _, hstart,
      fun _ hmem => absurd hmem List.not_mem_nil⟩, fun _ hmem => absurd hmem List.not_mem_nil, .nil⟩
  | malloc n =>
    by_cases hfull : s.heap.stop < u32 (s.heap.ptr + n)
    · have hnext : s.next (.malloc n) = s := by
        rw [EarlyState.next, EarlyHeap.earlyMalloc, if_pos hfull]
        rfl
      rw [hnext]
      exact ⟨⟨used, hb⟩, hs⟩
    · obtain ⟨hroom, hptr⟩ := hb.grows (hsize n rfl) hok hfull
      have hlow := hb.low.trans (Nat.le_add_right used n)
      have hnext : s.next (.malloc n) = ⟨⟨s.heap.base, s.heap.stop, u32 (s.heap.ptr + n)⟩,
          if s.heap.ptr = 0 then s.blocks else (s.heap.ptr, n) :: s.blocks⟩ := by
        rw [EarlyState.next, EarlyHeap.earlyMalloc, if_neg hfull]
      rw [hnext]
      have hbelow (b : EarlyBlock) (hmem : b ∈ s.blocks) : b.1 + b.2 ≤ used + n :=
        (hb.below b hmem).trans (Nat.le_add_right _ _)
      by_cases hnull : s.heap.ptr = 0
      · rw [if_pos hnull]
        exact ⟨⟨used + n, hb.start, hb.stop, hlow, hroom, hptr, hbelow⟩, hs.inside, hs.disjoint⟩
      · rw [if_neg hnull]
        have hused : s.heap.ptr = used := by
          have hptr := hb.ptr
          have hhigh := hb.high
          unfold u32 at hptr
          omega
        rw [hused]
        refine ⟨⟨used + n, hb.start, hb.stop, hlow, hroom, hused ▸ hptr, fun b hmem => ?_⟩,
          fun b hmem => ?_, hs.disjoint.cons fun b hmem => .inr (hb.below b hmem)⟩
        · rcases List.mem_cons.mp hmem with rfl | hmem
          · exact le_refl _
          · exact hbelow b hmem
        · rcases List.mem_cons.mp hmem with rfl | hmem
          · exact ⟨hb.low, hroom⟩
          · exact hs.inside b hmem

/-- A block whose end has wrapped reaches out of the region. -/
theorem earlyStep_fits (hfits : base + size ≤ 4294967296) (hb : EarlyBounded base size used s)
    (hstep : EarlyStep s op t) (ht : EarlySound base size t) : EndFits s op := by
  obtain ⟨hsize, rfl⟩ := hstep
  cases op with
  | reset => exact trivial
  | malloc n =>
    by_contra hno
    obtain ⟨hwrap, hno⟩ := not_or.mp hno
    obtain ⟨hfull, hstop⟩ := not_or.mp hno
    have hn := hsize n rfl
    have hnull : s.heap.ptr ≠ 0 := by omega
    have hmem : (s.heap.ptr, n) ∈ (s.next (.malloc n)).blocks := by
      rw [EarlyState.next, EarlyHeap.earlyMalloc, if_neg hfull]
      dsimp only
      rw [if_neg hnull]
      exact List.mem_cons_self ..
    have hin := (ht.inside _ hmem).2
    have hend := hb.stop
    unfold u32 at hend
    dsimp only at hin
    omega

end Run

/-- The runs in which every block lies inside the region and no two of them overlap are those in
which no request is accepted although its end wraps. -/
theorem early_malloc_along_iff {base size : ℕ} (hbase : base < 4294967296)
    (hfits : base + size ≤ 4294967296) {ops : List EarlyOp} {t : EarlyState} :
    Run (Along (EarlySound base size) EarlyStep) (earlyStart base size) ops t ↔
      Run (Meeting EndFits EarlyStep) (earlyStart base size) ops t :=
  along_iff_meeting EarlyStep EndFits (P := EarlySound base size)
    (I := fun s => EarlySound base size s → ∃ used, EarlyBounded base size used s)
    (fun _ _ _ hb hs hstep ht => by
      obtain ⟨used, hb⟩ := hb hs
      exact (earlyStep_keeps hfits hbase hb hs (earlyStep_fits hfits hb hstep ht) hstep).1)
    (fun _ _ _ hb hs hstep => by
      obtain ⟨used, hb⟩ := hb hs
      exact ⟨earlyStep_fits hfits hb hstep,
        fun hok => (earlyStep_keeps hfits hbase hb hs hok hstep).2⟩)
    (fun _ => ⟨base, earlyStart_bounded hbase⟩) (earlyStart_sound base size)

theorem earlyStep_malloc {s : EarlyState} {n : ℕ} (hn : n < 4294967296) :
    EarlyStep s (.malloc n) (s.next (.malloc n)) :=
  ⟨fun _ hsize => EarlyOp.malloc.inj hsize ▸ hn, rfl⟩

/-- Two blocks in a region of 256 bytes, and a request that is too large. -/
theorem early_malloc_along_two : Run (Along (EarlySound 0x1000 0x100) EarlyStep)
    (earlyStart 0x1000 0x100) [.malloc 0x40, .malloc 0x80, .malloc 0x1000]
    ⟨⟨0x1000, 0x1100, 0x10C0⟩, [(0x1040, 0x80), (0x1000, 0x40)]⟩ := by
  refine (early_malloc_along_iff (by decide) (by decide)).mpr ?_
  refine .cons ⟨.inl (by decide), earlyStep_malloc (by decide)⟩ ?_
  refine .cons ⟨.inl (by decide), earlyStep_malloc (by decide)⟩ ?_
  have hlarge : EarlyState.next ⟨⟨0x1000, 0x1100, 0x10C0⟩, [(0x1040, 0x80), (0x1000, 0x40)]⟩
      (.malloc 0x1000) = ⟨⟨0x1000, 0x1100, 0x10C0⟩, [(0x1040, 0x80), (0x1000, 0x40)]⟩ := rfl
  exact .single ⟨.inr (.inl (by decide)), hlarge ▸ earlyStep_malloc (by decide)⟩

/-- A request of nearly 4 GiB is granted in a region of 256 bytes. -/
theorem early_malloc_wraps : ¬ ∀ base size ops t, base < 4294967296 → base + size ≤ 4294967296 →
    Run EarlyStep (earlyStart base size) ops t → EarlySound base size t := by
  intro h
  have hrun : Run EarlyStep (earlyStart 0x1000 0x100) [.malloc 0xFFFFFFFF] _ :=
    .single (earlyStep_malloc (by decide))
  have hsound := h 0x1000 0x100 _ _ (by decide) (by decide) hrun
  have hin := (hsound.inside (0x1000, 0xFFFFFFFF) (by decide)).2
  exact absurd hin (by decide)

end Leg

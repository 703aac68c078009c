import Leg.Lib.Tiling
import Leg.Memory.KernelHeap

/-! Block lists that the kernel heap's memory spells out: the header of each block in turn,
with the free ones linked in address order. Writes outside a range of blocks leave it laid
out, and a new link from the last free block before a point changes nothing else. -/
namespace Leg
open Tiling Memory

/-- A live allocation: the pointer its client got and the bytes it asked for. -/
structure Client where
  ptr : ℕ
  bytes : ℕ
  deriving DecidableEq

/-- The client's bytes lie in the body of the block at `a`, at its start or, behind the tag
that leads back to it, further up. -/
structure HoldsClient (m : Memory) (a size : ℕ) (c : Client) : Prop where
  lower : a + hdrBytes ≤ c.ptr
  upper : c.ptr + c.bytes ≤ a + hdrBytes + size
  pos : 0 < c.bytes
  start : c.ptr = a + hdrBytes ∨ a + hdrBytes + alignMetaBytes ≤ c.ptr ∧
    m.load (c.ptr - 8) = a + hdrBytes ∧ m.load (c.ptr - 4) = alignTag

/-- The header at `a` describes the block `b`, followed by the free block `nx`. -/
def Header (m : Memory) (a : ℕ) (b : Block Client) (nx : ℕ) : Prop :=
  m.load (a + 4) = b.size ∧
    match b.owner with
    | none => m.load a = kheapMagicFree ∧ m.load (a + 8) = nx
    | some c => m.load a = kheapMagicUsed ∧ m.load (a + 8) = 0 ∧ HoldsClient m a b.size c

/-- From `a` on the memory holds these blocks; `nx` is the free block after them. -/
def Laid (m : Memory) : (a : ℕ) → List (Block Client) → (nx : ℕ) → Prop
  | _, [], _ => True
  | a, b :: bs, nx => Header m a b (nextFree hdrBytes (a + hdrBytes + b.size) bs nx) ∧
      Laid m (a + hdrBytes + b.size) bs nx

section Transport
variable {m n : Memory} {a nx : ℕ}

theorem HoldsClient.body {size : ℕ} {c : Client} (h : HoldsClient m a size c)
    (hag : Agree m n (a + hdrBytes) (a + hdrBytes + size)) : HoldsClient n a size c := by
  refine ⟨h.lower, h.upper, h.pos, h.start.imp id fun ⟨h1, h2, h3⟩ => ⟨h1, ?_, ?_⟩⟩
  · have := h.upper
    unfold hdrBytes alignMetaBytes at *
    rw [hag.load (by omega) (by omega), h2]
  · have := h.upper
    unfold hdrBytes alignMetaBytes at *
    rw [hag.load (by omega) (by omega), h3]

theorem HoldsClient.transport {size : ℕ} {c : Client} (h : HoldsClient m a size c)
    (hag : Agree m n a (a + hdrBytes + size)) : HoldsClient n a size c :=
  h.body (hag.mono (Nat.le_add_right _ _) (le_refl _))

theorem HoldsClient.overwrite {size : ℕ} {c : Client} (h : HoldsClient m a size c)
    (hag : ∀ lo hi, hi ≤ c.ptr ∨ c.ptr + c.bytes ≤ lo → Agree m n lo hi) :
    HoldsClient n a size c := by
  refine ⟨h.lower, h.upper, h.pos, h.start.imp id fun ⟨habove, hraw, htag⟩ => ⟨habove, ?_, ?_⟩⟩
  · unfold hdrBytes alignMetaBytes at habove
    rw [(hag (c.ptr - 8) (c.ptr - 4) (by omega)).load (by omega) (by omega), hraw]
  · unfold hdrBytes alignMetaBytes at habove
    rw [(hag (c.ptr - 4) c.ptr (by omega)).load (by omega) (by omega), htag]

theorem Header.transport {b : Block Client} (h : Header m a b nx)
    (hag : Agree m n a (a + hdrBytes + b.size)) : Header n a b nx := by
  unfold Header at h ⊢
  have h0 : n.load a = m.load a := hag.load (le_refl a) (by unfold hdrBytes; omega)
  have h4 : n.load (a + 4) = m.load (a + 4) := hag.load (by omega) (by unfold hdrBytes; omega)
  have h8 : n.load (a + 8) = m.load (a + 8) := hag.load (by omega) (by unfold hdrBytes; omega)
  rw [h0, h4, h8]
  refine ⟨h.1, ?_⟩
  cases hb : b.owner with
  | none =>
    rw [hb] at h
    exact h.2
  | some c =>
    rw [hb] at h
    exact ⟨h.2.1, h.2.2.1, h.2.2.2.transport hag⟩

theorem Laid.transport {bs : List (Block Client)} (h : Laid m a bs nx)
    (hag : Agree m n a (a + span hdrBytes bs)) : Laid n a bs nx := by
  induction bs generalizing a with
  | nil => trivial
  | cons b bs ih =>
    rw [span_cons] at hag
    exact ⟨h.1.transport (hag.mono (le_refl _) (by omega)),
      ih h.2 (hag.mono (by omega) (by omega))⟩

theorem laid_append {xs ys : List (Block Client)} : Laid m a (xs ++ ys) nx ↔
    Laid m a xs (nextFree hdrBytes (a + span hdrBytes xs) ys nx) ∧
      Laid m (a + span hdrBytes xs) ys nx := by
  induction xs generalizing a with
  | nil => simp [Laid]
  | cons b xs ih =>
    simp only [List.cons_append, Laid, ih, nextFree_append, span_cons, and_assoc]
    rw [show a + hdrBytes + b.size + span hdrBytes xs =
      a + (hdrBytes + b.size + span hdrBytes xs) by omega]

theorem Laid.allUsed {bs : List (Block Client)} (h : Laid m a bs nx) (hall : AllUsed bs)
    (nx' : ℕ) : Laid m a bs nx' := by
  induction bs generalizing a with
  | nil => trivial
  | cons b bs ih =>
    rw [allUsed_cons] at hall
    refine ⟨?_, ih h.2 hall.2⟩
    have hh := h.1
    unfold Header at hh ⊢
    refine ⟨hh.1, ?_⟩
    cases hb : b.owner with
    | none => simp [hb] at hall
    | some c =>
      rw [hb] at hh
      exact hh.2

end Transport

/-- The memory of the heap spells out these blocks, with the free list and the counter. -/
structure HeapRep (s : KHeap) (blocks : List (Block Client)) : Prop where
  base_pos : 0 < s.base
  capacity : s.capacity = kheapSize
  fits : s.base + kheapSize < 4294967296
  laid : Laid s.mem s.base blocks 0
  covers : span hdrBytes blocks = kheapSize
  freeList : s.freeList = nextFree hdrBytes s.base blocks 0
  used : s.used = usedSum blocks

section Relink
variable {s : KHeap} {pre : List (Block Client)} {prev nx : ℕ}

@[simp] theorem KHeap.relink_base (n : ℕ) : (s.relink prev n).base = s.base := by
  unfold KHeap.relink
  split <;> rfl

@[simp] theorem KHeap.relink_capacity (n : ℕ) : (s.relink prev n).capacity = s.capacity := by
  unfold KHeap.relink
  split <;> rfl

@[simp] theorem KHeap.relink_used (n : ℕ) : (s.relink prev n).used = s.used := by
  unfold KHeap.relink
  split <;> rfl

/-- Linking the last free block of `pre`, or the list head, to `nx'` moves the link after
`pre` and touches nothing behind it. -/
theorem relink_laid (h : Laid s.mem s.base pre nx)
    (hf : s.freeList = nextFree hdrBytes s.base pre nx) (hp : LastFree hdrBytes s.base pre prev)
    (hb : 0 < s.base) {nx' : ℕ} (hn : nx' < 4294967296) :
    Laid (s.relink prev nx').mem s.base pre nx' ∧
      (s.relink prev nx').freeList = nextFree hdrBytes s.base pre nx' ∧
      ∀ hi, Agree s.mem (s.relink prev nx').mem (s.base + span hdrBytes pre) hi := by
  rcases hp with ⟨hall, rfl⟩ | ⟨xs, f, ys, rfl, hfree, hys, rfl⟩
  · simp only [KHeap.relink, ne_eq, not_true, if_false]
    exact ⟨h.allUsed hall nx', hall.nextFree.symm, fun _ => .refl _ _ _⟩
  · have hne : s.base + span hdrBytes xs ≠ 0 := by omega
    simp only [KHeap.relink, hne, ne_eq, not_false_eq_true, if_true, KHeap.setNextFree]
    rw [laid_append] at h ⊢
    obtain ⟨hxs, hf', hys'⟩ := h
    simp only [nextFree, hfree, if_true] at hxs ⊢
    refine ⟨⟨?_, ?_, ?_⟩, ?_, fun hi => ?_⟩
    · exact hxs.transport (store_agree _ _ _ (.inl (by omega)))
    · unfold Header at hf' ⊢
      rw [Option.isNone_iff_eq_none] at hfree
      rw [hfree] at hf' ⊢
      rw [hys.nextFree]
      rw [load_store_of_disjoint _ _ (by omega), load_store_of_disjoint _ _ (by omega),
        load_store_self _ _ hn]
      exact ⟨hf'.1, hf'.2.1, rfl⟩
    · refine (hys'.allUsed hys nx').transport (store_agree _ _ _ (.inr ?_))
      unfold hdrBytes
      omega
    · rw [hf, nextFree_append, nextFree_append]
      simp only [nextFree, hfree, if_true]
    · refine store_agree _ _ _ (.inr ?_)
      rw [span_append, span_cons]
      unfold hdrBytes
      omega

end Relink

end Leg

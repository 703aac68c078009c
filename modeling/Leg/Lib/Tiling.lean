import Mathlib.Data.List.Chain
import Mathlib.Algebra.BigOperators.Group.List.Basic
import Mathlib.Algebra.GroupWithZero.Nat

/-! Blocks that tile a range, each a header of `hdr` bytes and a body. A block is free or
has an owner; no two free blocks are neighbours once they have been merged. The headers'
contents are a matter of the program: here a block list only says where they are. -/
namespace Leg.Tiling

/-- A block: the size of its body, and its owner if it is in use. -/
structure Block (α : Type*) where
  size : ℕ
  owner : Option α

variable {α : Type*} (hdr : ℕ)

/-- The bytes the blocks cover. -/
def span (bs : List (Block α)) : ℕ := (bs.map fun b => hdr + b.size).sum

/-- The address of the first free block of the list laid out from `a` on, else `nx`. -/
def nextFree : (a : ℕ) → List (Block α) → (nx : ℕ) → ℕ
  | _, [], nx => nx
  | a, b :: bs, nx => if b.owner.isNone then a else nextFree (a + hdr + b.size) bs nx

/-- The addresses of the headers. -/
def addrs : (a : ℕ) → List (Block α) → List ℕ
  | _, [] => []
  | a, b :: bs => a :: addrs (a + hdr + b.size) bs

/-- The owners, in address order. -/
def owners (bs : List (Block α)) : List α := bs.filterMap Block.owner

/-- The bytes in the bodies of the blocks in use. -/
def usedSum (bs : List (Block α)) : ℕ := (bs.map fun b => if b.owner.isNone then 0 else b.size).sum

/-- No block of the list is free. -/
def AllUsed (bs : List (Block α)) : Prop := ∀ b ∈ bs, b.owner.isNone = false

/-- No two neighbours are free. -/
def Separated (bs : List (Block α)) : Prop :=
  bs.IsChain fun x y => x.owner.isNone = false ∨ y.owner.isNone = false

/-- No free block of the list has `n` bytes. -/
def NoRoom (n : ℕ) (bs : List (Block α)) : Prop := ∀ b ∈ bs, b.owner.isNone → b.size < n

/-- `prev` is the address of the last free block before the end of the list, 0 if none is. -/
def LastFree (a : ℕ) (bs : List (Block α)) (prev : ℕ) : Prop :=
  (AllUsed bs ∧ prev = 0) ∨
    ∃ xs f ys, bs = xs ++ f :: ys ∧ f.owner.isNone ∧ AllUsed ys ∧ prev = a + span hdr xs

section Span
variable {hdr} (xs ys : List (Block α)) (b : Block α)

@[simp] theorem span_nil : span hdr ([] : List (Block α)) = 0 := rfl

@[simp] theorem span_cons : span hdr (b :: xs) = hdr + b.size + span hdr xs := by simp [span]

@[simp] theorem span_append : span hdr (xs ++ ys) = span hdr xs + span hdr ys := by simp [span]

theorem length_le_span (h : 0 < hdr) : xs.length ≤ span hdr xs := by
  induction xs with
  | nil => simp
  | cons b xs ih =>
    rw [span_cons, List.length_cons]
    omega

@[simp] theorem usedSum_nil : usedSum ([] : List (Block α)) = 0 := rfl

@[simp] theorem usedSum_cons :
    usedSum (b :: xs) = (if b.owner.isNone then 0 else b.size) + usedSum xs := by simp [usedSum]

@[simp] theorem usedSum_append : usedSum (xs ++ ys) = usedSum xs + usedSum ys := by simp [usedSum]

theorem usedSum_le_span (hdr : ℕ) (xs : List (Block α)) : usedSum xs ≤ span hdr xs := by
  induction xs with
  | nil => simp
  | cons b xs ih =>
    rw [usedSum_cons, span_cons]
    split <;> omega

@[simp] theorem owners_append : owners (xs ++ ys) = owners xs ++ owners ys := by simp [owners]

theorem AllUsed.nil : AllUsed ([] : List (Block α)) := by simp [AllUsed]

theorem allUsed_append : AllUsed (xs ++ ys) ↔ AllUsed xs ∧ AllUsed ys := by
  simp only [AllUsed, List.mem_append, or_imp, forall_and]

@[simp] theorem noRoom_nil (n : ℕ) : NoRoom n ([] : List (Block α)) := by simp [NoRoom]

@[simp] theorem noRoom_cons (n : ℕ) :
    NoRoom n (b :: xs) ↔ (b.owner.isNone → b.size < n) ∧ NoRoom n xs := by simp [NoRoom]

@[simp] theorem noRoom_append (n : ℕ) : NoRoom n (xs ++ ys) ↔ NoRoom n xs ∧ NoRoom n ys := by
  simp only [NoRoom, List.mem_append, or_imp, forall_and]

theorem allUsed_cons : AllUsed (b :: xs) ↔ b.owner.isNone = false ∧ AllUsed xs := by
  simp [AllUsed]

end Span

section NextFree
variable {hdr} {a nx : ℕ} {xs ys : List (Block α)}

theorem nextFree_append :
    nextFree hdr a (xs ++ ys) nx = nextFree hdr a xs (nextFree hdr (a + span hdr xs) ys nx) := by
  induction xs generalizing a with
  | nil => rfl
  | cons b xs ih =>
    simp only [List.cons_append, nextFree, ih, span_cons]
    rw [show a + hdr + b.size + span hdr xs = a + (hdr + b.size + span hdr xs) by omega]

theorem AllUsed.nextFree (h : AllUsed xs) : nextFree hdr a xs nx = nx := by
  induction xs generalizing a with
  | nil => rfl
  | cons b xs ih =>
    rw [allUsed_cons] at h
    simp only [Tiling.nextFree, h.1, Bool.false_eq_true, if_false]
    exact ih h.2

/-- The next free block is one of the list's, or it is the one after the list. -/
theorem nextFree_cases (hdr a nx : ℕ) (xs : List (Block α)) :
    (AllUsed xs ∧ nextFree hdr a xs nx = nx) ∨
      (a ≤ nextFree hdr a xs nx ∧ nextFree hdr a xs nx < a + span hdr xs + 1 ∧
        ∃ us f zs, xs = us ++ f :: zs ∧ AllUsed us ∧ f.owner.isNone ∧
          nextFree hdr a xs nx = a + span hdr us) := by
  induction xs generalizing a with
  | nil => exact .inl ⟨.nil, rfl⟩
  | cons b xs ih =>
    simp only [nextFree]
    cases hb : b.owner.isNone with
    | true =>
      right
      rw [if_pos rfl]
      exact ⟨le_refl a, by omega, [], b, xs, rfl, .nil, hb, rfl⟩
    | false =>
      simp only [Bool.false_eq_true, if_false]
      rcases ih (a + hdr + b.size) with ⟨hall, hnx⟩ | ⟨hle, hlt, us, f, zs, rfl, hus, hf, heq⟩
      · exact .inl ⟨(allUsed_cons _ _).mpr ⟨hb, hall⟩, hnx⟩
      · right
        rw [span_cons]
        refine ⟨by omega, by omega, b :: us, f, zs, rfl, (allUsed_cons _ _).mpr ⟨hb, hus⟩, hf, ?_⟩
        rw [heq, span_cons]
        omega

theorem LastFree.nil : LastFree hdr a ([] : List (Block α)) 0 := .inl ⟨.nil, rfl⟩

theorem LastFree.used {prev : ℕ} (h : LastFree hdr a xs prev) {b : Block α}
    (hb : b.owner.isNone = false) : LastFree hdr a (xs ++ [b]) prev := by
  have hone : AllUsed [b] := by
    intro c hc
    rwa [List.mem_singleton.mp hc]
  rcases h with ⟨hall, h0⟩ | ⟨us, f, ys, rfl, hf, hys, heq⟩
  · exact .inl ⟨(allUsed_append _ _).mpr ⟨hall, hone⟩, h0⟩
  · exact .inr ⟨us, f, ys ++ [b], by simp, hf, (allUsed_append _ _).mpr ⟨hys, hone⟩, heq⟩

theorem LastFree.free {b : Block α} (hb : b.owner.isNone) :
    LastFree hdr a (xs ++ [b]) (a + span hdr xs) :=
  .inr ⟨xs, b, [], rfl, hb, .nil, rfl⟩

end NextFree

section Addrs
variable {hdr} {a : ℕ} {xs ys : List (Block α)}

theorem addrs_append :
    addrs hdr a (xs ++ ys) = addrs hdr a xs ++ addrs hdr (a + span hdr xs) ys := by
  induction xs generalizing a with
  | nil => rfl
  | cons b xs ih =>
    simp only [List.cons_append, addrs, ih, span_cons]
    rw [show a + hdr + b.size + span hdr xs = a + (hdr + b.size + span hdr xs) by omega]

theorem le_of_mem_addrs {h : ℕ} (hh : h ∈ addrs hdr a xs) : a ≤ h := by
  induction xs generalizing a with
  | nil => simp [addrs] at hh
  | cons b xs ih =>
    rcases List.mem_cons.mp hh with rfl | hh
    · exact le_refl _
    · have := ih hh
      omega

theorem addrs_pairwise (h : 0 < hdr) : (addrs hdr a xs).Pairwise (· < ·) := by
  induction xs generalizing a with
  | nil => exact .nil
  | cons b xs ih =>
    refine List.pairwise_cons.mpr ⟨fun c hc => ?_, ih⟩
    have := le_of_mem_addrs hc
    omega

/-- The block a header address belongs to. -/
theorem mem_addrs {h : ℕ} : h ∈ addrs hdr a xs ↔
    ∃ pre b post, xs = pre ++ b :: post ∧ h = a + span hdr pre := by
  induction xs generalizing a with
  | nil => simp [addrs]
  | cons c xs ih =>
    rw [addrs, List.mem_cons, ih]
    constructor
    · rintro (rfl | ⟨pre, b, post, rfl, rfl⟩)
      · exact ⟨[], c, xs, rfl, rfl⟩
      · exact ⟨c :: pre, b, post, rfl, by rw [span_cons]; omega⟩
    · rintro ⟨pre, b, post, heq, rfl⟩
      cases pre with
      | nil => exact .inl rfl
      | cons d pre =>
        rw [List.cons_append, List.cons.injEq] at heq
        obtain ⟨rfl, heq⟩ := heq
        exact .inr ⟨pre, b, post, heq, by rw [span_cons]; omega⟩

/-- Every byte of the range lies in a block. -/
theorem exists_block {x : ℕ} {bs : List (Block α)} (hlo : a ≤ x) (hhi : x < a + span hdr bs) :
    ∃ pre b post, bs = pre ++ b :: post ∧ a + span hdr pre ≤ x ∧
      x < a + span hdr pre + hdr + b.size := by
  induction bs generalizing a with
  | nil =>
    rw [span_nil] at hhi
    omega
  | cons b bs ih =>
    rw [span_cons] at hhi
    by_cases hx : x < a + hdr + b.size
    · exact ⟨[], b, bs, rfl, by simpa using hlo, by simpa using hx⟩
    · obtain ⟨pre, d, post, rfl, h1, h2⟩ := ih (a := a + hdr + b.size) (by omega) (by omega)
      refine ⟨b :: pre, d, post, rfl, ?_, ?_⟩
      · rw [span_cons]
        omega
      · rw [span_cons]
        omega

/-- Laid out from `a` on, `new` is `old` with some neighbours merged and owners changed: no header
is new, the blocks cover as much, and what divides a header and every size divides them still. -/
structure Coarser (hdr a : ℕ) (old new : List (Block α)) : Prop where
  span : span hdr new = span hdr old
  addrs : ∀ x ∈ addrs hdr a new, x ∈ addrs hdr a old
  sizes : ∀ q, q ∣ hdr → (∀ b ∈ old, q ∣ b.size) → ∀ b ∈ new, q ∣ b.size

theorem Coarser.refl (hdr a : ℕ) (bs : List (Block α)) : Coarser hdr a bs bs :=
  ⟨rfl, fun _ h => h, fun _ _ h => h⟩

theorem Coarser.trans {xs ys zs : List (Block α)} (h : Coarser hdr a xs ys)
    (h' : Coarser hdr a ys zs) : Coarser hdr a xs zs :=
  ⟨h'.span.trans h.span, fun x hx => h.addrs x (h'.addrs x hx),
    fun q hq hall => h'.sizes q hq (h.sizes q hq hall)⟩

/-- A block changes hands. -/
theorem coarser_owner (hdr a : ℕ) (pre post : List (Block α)) (n : ℕ) (o o' : Option α) :
    Coarser hdr a (pre ++ ⟨n, o⟩ :: post) (pre ++ ⟨n, o'⟩ :: post) := by
  refine ⟨by simp, fun x hx => by simpa [addrs_append, Tiling.addrs] using hx,
    fun q _ hall b hb => ?_⟩
  rcases List.mem_append.mp hb with hb | hb
  · exact hall b (List.mem_append_left _ hb)
  · rcases List.mem_cons.mp hb with rfl | hb
    · exact hall ⟨n, o⟩ (by simp)
    · exact hall b (by simp [hb])

/-- Two neighbours become one block. -/
theorem coarser_join (pre post : List (Block α)) (n k : ℕ) (o o' o'' : Option α) :
    Coarser hdr a (pre ++ ⟨n, o⟩ :: ⟨k, o'⟩ :: post) (pre ++ ⟨n + hdr + k, o''⟩ :: post) := by
  refine ⟨by simp; omega, fun x hx => ?_, fun q hq hall b hb => ?_⟩
  · rw [addrs_append, List.mem_append, Tiling.addrs, List.mem_cons] at hx ⊢
    rw [Tiling.addrs, List.mem_cons]
    dsimp only at hx ⊢
    rw [show a + Tiling.span hdr pre + hdr + (n + hdr + k) =
      a + Tiling.span hdr pre + hdr + n + hdr + k by omega] at hx
    exact hx.imp id fun h => h.imp id .inr
  · rcases List.mem_append.mp hb with hb | hb
    · exact hall b (List.mem_append_left _ hb)
    · rcases List.mem_cons.mp hb with rfl | hb
      · have h1 := hall ⟨n, o⟩ (by simp)
        have h2 := hall ⟨k, o'⟩ (by simp)
        exact Nat.dvd_add (Nat.dvd_add h1 hq) h2
      · exact hall b (by simp [hb])

end Addrs

end Leg.Tiling

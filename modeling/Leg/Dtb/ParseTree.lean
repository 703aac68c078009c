import Leg.Dtb.Blob

/-! `dtb_parse` of a blob that encodes a tree gives this tree. The look-ahead and the main loop
are each followed along the derivation of the encoding. -/
namespace Leg
open Readable

section Reads
variable {m : Readable} {a : ℕ} {bytes : List UInt8}

theorem be32_value {n : ℕ} (hn : n < 4294967296) : be32Value (be32 n) = n := by
  simp only [be32, be32Value, UInt8.toNat_ofNat']
  omega

theorem Readable.Holds.be32Read (h : m.Holds a bytes) (hlen : bytes.length = 4) :
    be32Read m a = some (be32Value bytes) := by
  obtain ⟨b0, b1, b2, b3, rfl⟩ : ∃ b0 b1 b2 b3, bytes = [b0, b1, b2, b3] := by
    match bytes, hlen with
    | [b0, b1, b2, b3], _ => exact ⟨b0, b1, b2, b3, rfl⟩
  unfold Leg.be32Read
  rw [h.head, h.tail.head, h.tail.tail.head, h.tail.tail.tail.head]
  rfl

theorem Readable.Holds.word {n : ℕ} (h : m.Holds a (be32 n)) (hn : n < 4294967296) :
    Leg.be32Read m a = some n := by
  rw [h.be32Read (be32_length n), be32_value hn]

theorem blobAt_holds {base off : ℕ} {blob piece : List UInt8}
    (hfits : base + blob.length ≤ 4294967296)
    (h : piece <+: blob.drop off) (hoff : off ≤ blob.length) :
    (blobAt base blob).Holds (base + off) piece := by
  obtain ⟨rest, hrest⟩ := h
  have hlen := congrArg List.length hrest
  rw [List.length_append, List.length_drop] at hlen
  refine ⟨by omega, fun k hk => ?_⟩
  have hsub : base + off + k - base = off + k := by omega
  unfold blobAt
  rw [if_pos (by omega), hsub, ← List.getElem?_drop, ← hrest, List.getElem?_append_left hk,
    List.getElem?_eq_getElem hk]

end Reads

section Types
variable {m : Readable} {name data : ℕ} {s bytes : List UInt8}

theorem namedAny_eq (h : m.Holds name (s ++ [0])) (hs : (0 : UInt8) ∉ s)
    {names : List (List UInt8)} (hnames : ∀ t ∈ names, (0 : UInt8) ∉ t) :
    namedAny m name names = some (decide (s ∈ names)) := by
  induction names with
  | nil => rfl
  | cons t ts ih =>
    rw [namedAny, h.strcmpEq hs (hnames t (List.mem_cons_self ..)), Option.bind_eq_bind,
      Option.bind_some]
    by_cases ht : s = t
    · simp [ht]
    · simp [ht, ih fun t ht => hnames t (List.mem_cons_of_mem _ ht)]

theorem allStr_isSome (h : m.Holds data bytes) (left : ℕ) :
    ∀ i, i + left ≤ bytes.length → ∃ r, allStr m data left i = some r := by
  induction left with
  | zero => exact fun i _ => ⟨true, rfl⟩
  | succ left ih =>
    intro i hi
    have hlt : i < bytes.length := by omega
    have haddr : u32 (data + i) = data + i := u32_of_lt (by have := h.1; omega)
    rw [allStr, haddr, h.2 i hlt, Option.bind_eq_bind, Option.bind_some]
    split
    · exact ⟨_, rfl⟩
    · exact ih (i + 1) (by omega)

theorem countNulls_isSome (h : m.Holds data bytes) (left : ℕ) :
    ∀ i nulls, i + left ≤ bytes.length → ∃ r, countNulls m data left i nulls = some r := by
  induction left with
  | zero => exact fun i nulls _ => ⟨nulls, rfl⟩
  | succ left ih =>
    intro i nulls hi
    have hlt : i < bytes.length := by omega
    have haddr : u32 (data + i) = data + i := u32_of_lt (by have := h.1; omega)
    rw [countNulls, haddr, h.2 i hlt, Option.bind_eq_bind, Option.bind_some]
    exact ih (i + 1) _ (by omega)

/-- The guess of the type reads the data and nothing behind it. -/
theorem guessType_isSome (hname : m.Holds name (s ++ [0])) (hs : (0 : UInt8) ∉ s)
    (hdata : m.Holds data bytes) : ∃ type, guessType m name data bytes.length = some type := by
  unfold guessType
  rw [namedAny_eq hname hs (by decide), hname.strcmpEq hs (by decide)]
  simp only [Option.bind_eq_bind, Option.bind_some]
  obtain ⟨r, hr⟩ := allStr_isSome hdata bytes.length 0 (by omega)
  obtain ⟨nulls, hnulls⟩ := countNulls_isSome hdata bytes.length 0 0 (by omega)
  rw [hr, hnulls]
  split
  · exact ⟨_, rfl⟩
  next hlen =>
    have hlast : u32 (data + bytes.length - 1) = data + (bytes.length - 1) := by
      rw [u32_of_lt (by have := hdata.1; omega)]
      omega
    rw [hlast, hdata.2 _ (by omega)]
    simp only [Option.bind_some]
    split
    · exact ⟨_, rfl⟩
    split
    · exact ⟨_, rfl⟩
    split
    · split
      · exact ⟨_, rfl⟩
      · exact ⟨_, rfl⟩
    · exact ⟨_, rfl⟩

/-- What a property makes of the fields of its node. -/
def withProp (p : FdtProp) (node : DtbNode) : DtbNode :=
  { node with
    addressCells := lastWord addressCellsNames [p] node.addressCells
    sizeCells := lastWord sizeCellsNames [p] node.sizeCells
    phandle := lastWord phandleNames [p] node.phandle }

theorem cellProps_eq {p : FdtProp} (hname : m.Holds name (p.name ++ [0]))
    (hs : (0 : UInt8) ∉ p.name) (hdata : m.Holds data p.data) (node : DtbNode) :
    cellProps m name data p.data.length node = some (withProp p node) := by
  obtain ⟨pname, pdata⟩ := p
  cases node
  dsimp only at hname hs hdata ⊢
  unfold cellProps withProp lastWord lastWord
  rw [hname.strcmpEq hs (by decide), hname.strcmpEq hs (by decide),
    namedAny_eq hname hs (by decide)]
  simp only [Option.bind_eq_bind, Option.bind_some]
  by_cases hlen : pdata.length = 4
  · rw [hdata.be32Read hlen]
    -- the three names are different from one another
    by_cases hac : pname ∈ addressCellsNames
    · obtain rfl := List.mem_singleton.mp hac
      simp only [hlen, decide_true, Bool.and_self, if_true, Option.bind_some, hac]
      rfl
    by_cases hsc : pname ∈ sizeCellsNames
    · obtain rfl := List.mem_singleton.mp hsc
      simp only [hlen, hac, hsc]
      rfl
    have hac' := List.mem_singleton.not.mp hac
    have hsc' := List.mem_singleton.not.mp hsc
    unfold phandleNames
    by_cases hph : pname ∈ [ascii ['p', 'h', 'a', 'n', 'd', 'l', 'e'],
      ascii ['l', 'i', 'n', 'u', 'x', ',', 'p', 'h', 'a', 'n', 'd', 'l', 'e']]
    · simp only [hlen, hac, hsc, hac', hsc', hph]
      rfl
    · simp only [hlen, hac, hsc, hac', hsc', hph]
      rfl
  · simp only [hlen, and_false, if_false, decide_false, Bool.and_false, Bool.false_eq_true]
    rfl

end Types

/-- Bytes of the structure block, from a whole word on. -/
structure InBlock (m : Readable) (p : Parser) (a : ℕ) (bytes : List UInt8) : Prop where
  holds : m.Holds a bytes
  low : p.structBlock ≤ a
  high : a + bytes.length ≤ p.structBlock + p.structSize
  whole : 4 ∣ a - p.structBlock
  fits : p.structBlock + p.structSize < 4294967296

section Block
variable {m : Readable} {p : Parser} {strings : List UInt8} {a : ℕ}

theorem structAt_eq {off : ℕ} (h : p.structBlock + (off + 3) < 4294967296) :
    structAt p off = p.structBlock + (off + 3) / 4 * 4 := by
  have hmask : (off + 3) &&& bnot 3 = (off + 3) / 4 * 4 :=
    land_bnot_two_pow (k := 2) (by omega) (by decide)
  have hoff : u32 (off + 3) = off + 3 := u32_of_lt (by omega)
  unfold structAt
  rw [hoff, hmask]
  exact u32_of_lt (by omega)

theorem inStruct_of {ptr len : ℕ} (hlow : p.structBlock ≤ ptr)
    (hhigh : ptr + len ≤ p.structBlock + p.structSize)
    (hfits : p.structBlock + p.structSize < 4294967296) : inStruct p ptr len = true := by
  unfold inStruct
  rw [u32_of_lt (by omega), u32_of_lt hfits]
  simp only [Bool.and_eq_true, decide_eq_true_eq]
  omega

/-- The loop over a terminated name stops at its NUL. -/
theorem nameEnd_eq {s : List UInt8} (h : m.Holds a (s ++ [0])) (hs : (0 : UInt8) ∉ s)
    (hlow : p.structBlock ≤ a) (hhigh : a + (s.length + 1) ≤ p.structBlock + p.structSize)
    (hfits : p.structBlock + p.structSize < 4294967296) {fuel : ℕ} (hfuel : s.length < fuel) :
    nameEnd m p fuel a = .ok (a + s.length) := by
  induction s generalizing a fuel with
  | nil =>
    obtain ⟨fuel, rfl⟩ := Nat.exists_eq_succ_of_ne_zero (Nat.ne_of_gt hfuel)
    have hhead := h.head
    rw [u32_of_lt (by omega)] at hhead
    rw [nameEnd, if_pos (inStruct_of hlow (by omega) hfits), hhead]
    rfl
  | cons c s ih =>
    obtain ⟨fuel, rfl⟩ := Nat.exists_eq_succ_of_ne_zero (Nat.ne_of_gt (Nat.zero_lt_of_lt hfuel))
    rw [List.length_cons] at hhigh hfuel
    have hc : c ≠ 0 := fun hzero => hs (hzero ▸ List.mem_cons_self ..)
    have hhead := h.head
    rw [u32_of_lt (by omega)] at hhead
    rw [nameEnd, if_pos (inStruct_of hlow (by omega) hfits), hhead, Outcome.ofRead_some,
      Outcome.ok_bind, if_neg hc, u32_of_lt (by omega),
      ih h.tail (fun hm => hs (List.mem_cons_of_mem _ hm)) (by omega) (by omega) (by omega),
      List.length_cons]
    congr 1
    omega

namespace InBlock
variable {n : ℕ} {bytes pad rest s : List UInt8}

theorem inStruct (h : InBlock m p a (bytes ++ rest)) : inStruct p a bytes.length = true := by
  have hhigh := h.high
  rw [List.length_append] at hhigh
  exact inStruct_of h.low (by omega) h.fits

theorem front (h : InBlock m p a (bytes ++ rest)) : InBlock m p a bytes := by
  have hhigh := h.high
  rw [List.length_append] at hhigh
  exact ⟨(holds_append.mp h.holds).1, h.low, by omega, h.whole, h.fits⟩

theorem back (h : InBlock m p a (bytes ++ rest)) (hwhole : 4 ∣ bytes.length) :
    InBlock m p (a + bytes.length) rest := by
  have hhigh := h.high
  have hlow := h.low
  obtain ⟨q, hq⟩ := h.whole
  obtain ⟨r, hr⟩ := hwhole
  rw [List.length_append] at hhigh
  exact ⟨(holds_append.mp h.holds).2, by omega, by omega, ⟨q + r, by omega⟩, h.fits⟩

theorem skip (h : InBlock m p a (be32 n ++ rest)) : InBlock m p (a + 4) rest :=
  h.back (dvd_refl 4)

theorem word (h : InBlock m p a (be32 n ++ rest)) (hn : n < 4294967296) :
    Leg.inStruct p a 4 = true ∧ be32Read m a = some n ∧ u32 (a + 4) = a + 4 ∧
      InBlock m p (a + 4) rest := by
  have hhigh := h.high
  have hfits := h.fits
  rw [List.length_append, be32_length] at hhigh
  exact ⟨h.inStruct, (holds_append.mp h.holds).1.word hn, u32_of_lt (by omega), h.skip⟩

theorem padded (h : InBlock m p a (bytes ++ (pad ++ rest))) (hpad : Pads pad bytes)
    (hrest : 4 ≤ rest.length) :
    structAt p (a - p.structBlock + bytes.length) = a + (bytes.length + pad.length) ∧
      InBlock m p (a + (bytes.length + pad.length)) rest := by
  obtain ⟨-, hholds⟩ := holds_append.mp h.holds
  obtain ⟨-, hholds⟩ := holds_append.mp hholds
  rw [Nat.add_assoc] at hholds
  have hhigh := h.high
  have hlow := h.low
  have hfits := h.fits
  obtain ⟨q, hq⟩ := h.whole
  obtain ⟨hshort, r, hr⟩ := hpad
  rw [List.length_append, List.length_append] at hhigh
  constructor
  · rw [structAt_eq (by omega)]
    omega
  · exact ⟨hholds, by omega, by omega, ⟨q + r, by omega⟩, hfits⟩

/-- Behind a padded name: the loop stops at its NUL, and both ways of rounding its end up come to
the place of what follows. -/
theorem name {name : List UInt8} (h : InBlock m p a (name ++ [0] ++ (pad ++ rest)))
    (hname : (0 : UInt8) ∉ name) (hpad : Pads pad (name ++ [0])) (hrest : 4 ≤ rest.length) :
    ∃ next, nameEnd m p (p.structSize + 1) a = .ok (a + name.length) ∧
      structAt p (wsub (u32 (a + name.length + 1)) p.structBlock) = next ∧
      structAt p (wsub a p.structBlock + wsub (a + name.length) a + 1) = next ∧
      InBlock m p next rest ∧
      next + rest.length = a + (name ++ [0] ++ (pad ++ rest)).length := by
  obtain ⟨hnext, hin⟩ := h.padded hpad hrest
  have hhigh := h.high
  have hlow := h.low
  have hfits := h.fits
  simp only [List.length_append, List.length_singleton] at hhigh hnext ⊢
  have hstop : nameEnd m p (p.structSize + 1) a = .ok (a + name.length) :=
    nameEnd_eq (holds_append.mp h.holds).1 hname hlow (by omega) hfits (by omega)
  refine ⟨_, hstop, ?_, ?_, hin, ?_⟩
  · rw [u32_of_lt (by omega), wsub_of_le (by omega) (by omega), List.length_append,
      List.length_singleton, ← hnext]
    congr 1
    omega
  · rw [wsub_of_le hlow (by omega), wsub_of_le (by omega) (by omega), List.length_append,
      List.length_singleton, ← hnext]
    congr 1
    omega
  · rw [List.length_append, List.length_singleton]
    omega

theorem prop {nameOff : ℕ} {data : List UInt8}
    (h : InBlock m p a (be32 data.length ++ (be32 nameOff ++ (data ++ (pad ++ rest)))))
    (hpad : Pads pad data) (hrest : 4 ≤ rest.length) :
    Leg.inStruct p a 8 = true ∧ be32Read m a = some data.length ∧ u32 (a + 8) = a + 8 ∧
      InBlock m p (a + 8) (data ++ (pad ++ rest)) ∧
      structAt p (a + 8 - p.structBlock + data.length) = a + 8 + (data.length + pad.length) ∧
      InBlock m p (a + 8 + (data.length + pad.length)) rest ∧
      wsub (a + 8) p.structBlock = a + 8 - p.structBlock := by
  have hhigh := h.high
  have hfits := h.fits
  have hlow := h.low
  simp only [List.length_append, be32_length] at hhigh
  have hin := h.skip.skip
  rw [Nat.add_assoc] at hin
  obtain ⟨hnext, hnext'⟩ := hin.padded hpad hrest
  have hbound : Leg.inStruct p a 8 = true := inStruct_of hlow (by omega) hfits
  exact ⟨hbound, (holds_append.mp h.holds).1.word (by omega), u32_of_lt (by omega), hin, hnext,
    hnext', wsub_of_le (by omega) (by omega)⟩

end InBlock

namespace Body
variable {ps : List FdtProp} {cs : List FdtNode} {bytes : List UInt8}

theorem head (h : Body strings ps cs bytes) : 4 ≤ bytes.length ∧ bytes.head? = some 0 := by
  cases h with
  | done => exact ⟨le_refl _, rfl⟩
  | nop h => exact ⟨Nat.le_add_left _ _, rfl⟩
  | prop p hname hpad h => exact ⟨Nat.le_add_left _ _, rfl⟩
  | child c hname hpad hc h => exact ⟨Nat.le_add_left _ _, rfl⟩

theorem whole (h : Body strings ps cs bytes) : 4 ∣ bytes.length := by
  induction h with
  | done => exact dvd_refl 4
  | nop h ih =>
    rw [List.length_append, be32_length]
    omega
  | prop p hname hpad h ih =>
    have hdvd := hpad.2
    simp only [List.length_append, be32_length]
    omega
  | child c hname hpad hc h ihc ih =>
    have hdvd := hpad.2
    simp only [List.length_append, be32_length] at hdvd ⊢
    omega

/-- The look-ahead counts the properties of a node, and passes over a node below it. -/
theorem countProps (h : Body strings ps cs bytes) : ∀ {a : ℕ} (depth count : ℕ),
    InBlock m p a bytes → depth + bytes.length < 4294967296 → count + bytes.length < 4294967296 →
    ∃ k, ∀ fuel, Leg.countProps m p (fuel + k) a depth count =
      if depth = 0 then .ok (count + ps.length)
      else Leg.countProps m p fuel (a + bytes.length) (depth - 1) count := by
  induction h with
  | done =>
    intro a depth count hin _ _
    obtain ⟨hbound, hread, hnext, -⟩ := @InBlock.word m p a dtbEndNode [] hin (by decide)
    refine ⟨1, fun fuel => ?_⟩
    rw [Leg.countProps, hbound, hread, Outcome.ofRead_some, Outcome.ok_bind, hnext]
    rfl
  | nop h ih =>
    intro a depth count hin hdepth hcount
    obtain ⟨hbound, hread, hnext, hrest⟩ := hin.word (n := dtbNop) (by decide)
    rw [List.length_append, be32_length] at hdepth hcount ⊢
    obtain ⟨k, hk⟩ := ih depth count hrest (by omega) (by omega)
    refine ⟨k + 1, fun fuel => ?_⟩
    rw [← Nat.add_assoc, Leg.countProps, hbound, hread, Outcome.ofRead_some, Outcome.ok_bind,
      hnext]
    simp only [Bool.not_true, Bool.false_eq_true, if_false, if_true]
    rw [hk, Nat.add_assoc a 4]
  | prop q hname hpad h ih =>
    intro a depth count hin hdepth hcount
    obtain ⟨hbound, hread, hnext, hrest⟩ := hin.word (n := dtbPropToken) (by decide)
    obtain ⟨hbound', hlen, hnext', -, hplace, hrest', hoff⟩ := hrest.prop hpad h.head.1
    simp only [List.length_append, be32_length] at hdepth hcount ⊢
    have hcount' : u32 (count + 1) = count + 1 := u32_of_lt (by omega)
    obtain ⟨k, hk⟩ := ih depth (if depth = 0 then count + 1 else count) hrest'
      (by omega) (by split <;> omega)
    refine ⟨k + 1, fun fuel => ?_⟩
    rw [← Nat.add_assoc, Leg.countProps, hbound, hread, Outcome.ofRead_some, Outcome.ok_bind,
      hnext]
    simp only [Bool.not_true, Bool.false_eq_true, if_false, hbound', hlen, hnext', hoff, hplace,
      hcount', Outcome.ofRead_some, Outcome.ok_bind]
    rw [if_neg (by decide), if_neg (by decide), if_neg (by decide), if_pos trivial, hk]
    split
    · rw [List.length_cons, Nat.add_assoc, Nat.add_comm 1]
    · congr 1
      omega
  | child c hname hpad hc h ihc ih =>
    intro a depth count hin hdepth hcount
    obtain ⟨hbound, hread, hnext, hrest⟩ := hin.word (n := dtbBeginNode) (by decide)
    have hbody := hc.head.1
    obtain ⟨next, hstop, hplace, -, hin', hend⟩ := hrest.name hname hpad
      (by rw [List.length_append]; omega)
    simp only [List.length_append, be32_length] at hdepth hcount hend ⊢
    have hdepth' : u32 (depth + 1) = depth + 1 := u32_of_lt (by omega)
    obtain ⟨kc, hkc⟩ := ihc (depth + 1) count hin'.front (by omega) (by omega)
    obtain ⟨k, hk⟩ := ih depth count (hin'.back hc.whole) (by omega) (by omega)
    refine ⟨k + kc + 1, fun fuel => ?_⟩
    rw [← Nat.add_assoc, Leg.countProps, hbound, hread, Outcome.ofRead_some, Outcome.ok_bind,
      hnext]
    simp only [Bool.not_true, Bool.false_eq_true, if_false, hstop, hplace, hdepth',
      Outcome.ok_bind]
    rw [if_neg (by decide), if_neg (by decide), if_pos trivial, ← Nat.add_assoc, hkc,
      if_neg (Nat.succ_ne_zero _), Nat.add_sub_cancel, hk]
    split
    · rfl
    · congr 1
      omega

end Body

/-- The parsed property is this one. A comparison with its data ends before the memory does. -/
structure ParsedProp (m : Readable) (q : DtbProp) (prop : FdtProp) : Prop where
  name : m.Holds q.name (prop.name ++ [0])
  proper : (0 : UInt8) ∉ prop.name
  data : m.Holds q.data prop.data
  len : q.len = prop.data.length
  stop : ∃ l, m.Holds q.data l ∧ (0 : UInt8) ∈ l

/-- The parsed node is this one: it has the name, the properties in their order, the last phandle
and the children in their order. -/
inductive Parsed (m : Readable) : DtbNode → FdtNode → Prop
  | mk {n : DtbNode} {t : FdtNode} (name : m.Holds n.name (t.name ++ [0]))
      (proper : (0 : UInt8) ∉ t.name) (props : List.Forall₂ (ParsedProp m) n.props t.props)
      (phandle : n.phandle = lastWord phandleNames t.props 0)
      (children : List.Forall₂ (Parsed m) n.children t.children) : Parsed m n t

/-- A node with more properties and children. -/
def grown (node : DtbNode) (ps : List FdtProp) (props : List DtbProp) (children : List DtbNode) :
    DtbNode :=
  { node with
    props := node.props ++ props
    phandle := lastWord phandleNames ps node.phandle
    addressCells := lastWord addressCellsNames ps node.addressCells
    sizeCells := lastWord sizeCellsNames ps node.sizeCells
    children := node.children ++ children }

theorem grown_nil (node : DtbNode) : grown node [] [] [] = node := by
  cases node
  simp [grown, lastWord]

theorem grown_prop (node : DtbNode) (q : FdtProp) (pr : DtbProp) (ps : List FdtProp)
    (props : List DtbProp) (children : List DtbNode) :
    grown { withProp q node with props := node.props ++ [pr] } ps props children =
      grown node (q :: ps) (pr :: props) children := by
  simp [grown, withProp, lastWord]

theorem grown_child (node : DtbNode) (child : DtbNode) (ps : List FdtProp) (props : List DtbProp)
    (children : List DtbNode) :
    grown { node with children := node.children ++ [child] } ps props children =
      grown node ps props (child :: children) := by
  simp [grown]

/-- What the main loop makes of a property. -/
theorem parseProp_eq {q : FdtProp} {nameOff : ℕ} {pad bytes : List UInt8}
    {ps : List FdtProp} {cs : List FdtNode} (propCount : ℕ) (node : DtbNode)
    (hin : InBlock m p a (be32 q.data.length ++ (be32 nameOff ++ (q.data ++ (pad ++ bytes)))))
    (hpad : Pads pad q.data) (h : Body strings ps cs bytes) (hname : NameAt strings nameOff q.name)
    (hstrings : m.Holds p.stringBlock strings) (hsize : p.stringSize = strings.length)
    (hcount : node.props.length < propCount) :
    ∃ pr, ParsedProp m pr q ∧ parseProp m p propCount a node =
      some (some ({ withProp q node with props := node.props ++ [pr] },
        a + 8 + (q.data.length + pad.length))) := by
  obtain ⟨hproper, rest, hrest⟩ := hname
  have hlen := congrArg List.length hrest
  simp only [List.length_append, List.length_drop, List.length_singleton] at hlen
  have hfits := hstrings.1
  have hoff : nameOff < strings.length := by omega
  have hptr : u32 (p.stringBlock + nameOff) = p.stringBlock + nameOff := u32_of_lt (by omega)
  have hstring : m.Holds (p.stringBlock + nameOff) (q.name ++ [0]) := by
    rw [← List.take_append_drop nameOff strings, ← hrest, holds_append, holds_append,
      List.length_take, Nat.min_eq_left hoff.le] at hstrings
    exact hstrings.2.1
  obtain ⟨hbound, hread, hnext, hdata, hplace, -, hwsub⟩ := hin.prop hpad h.head.1
  have hnameRead : be32Read m (u32 (a + 4)) = some nameOff := by
    have hhigh := hin.high
    have hblock := hin.fits
    simp only [List.length_append, be32_length] at hhigh
    rw [u32_of_lt (by omega)]
    exact (holds_append.mp hin.skip.holds).1.word (by omega)
  have hdata' := (holds_append.mp hdata.holds).1
  obtain ⟨type, htype⟩ := guessType_isSome hstring hproper hdata'
  refine ⟨⟨p.stringBlock + nameOff, a + 8, q.data.length, type⟩,
    ⟨hstring, hproper, hdata', rfl, _, hdata.holds, ?_⟩, ?_⟩
  · exact List.mem_append_right _ (List.mem_append_right _ (List.mem_of_mem_head? h.head.2))
  · unfold parseProp
    rw [hbound, hread, hnameRead]
    simp only [Bool.not_true, Bool.false_eq_true, if_false, Option.bind_eq_bind, Option.bind_some]
    rw [if_neg (by omega), if_neg (by omega), hptr, hnext, htype, Option.bind_some,
      cellProps_eq hstring hproper hdata', Option.bind_some, hwsub, hplace]
    rfl

/-- The main loop parses the properties and children of a body. -/
def LoopParses (m : Readable) (p : Parser) (ps : List FdtProp) (cs : List FdtNode)
    (bytes : List UInt8) : Prop :=
  ∀ {a propCount : ℕ} {pools : Pools} {node : DtbNode}, InBlock m p a bytes →
    node.props.length + ps.length ≤ propCount →
    pools.nodeUsed + FdtNode.nodeCounts cs ≤ dtbMaxNodes →
    pools.propUsed + FdtNode.propCounts cs ≤ dtbMaxProps →
    ∃ k props children, (∀ fuel, k ≤ fuel → parseLoop m p fuel pools propCount a node =
        .ok (some (grown node ps props children, a + bytes.length),
          ⟨pools.nodeUsed + FdtNode.nodeCounts cs, pools.propUsed + FdtNode.propCounts cs⟩)) ∧
      List.Forall₂ (ParsedProp m) props ps ∧ List.Forall₂ (Parsed m) children cs

theorem FdtNode.nodeCount_eq (t : FdtNode) : t.nodeCount = nodeCounts t.children + 1 := by
  cases t
  rfl

theorem FdtNode.propCount_eq (t : FdtNode) :
    t.propCount = t.props.length + propCounts t.children := by
  cases t
  rfl

/-- `parse_node` of an encoded node, given that its main loop parses the body. -/
theorem parseNode_eq {t : FdtNode} {pad body rest : List UInt8} (pools : Pools)
    (parent : Option DtbNode)
    (hin : InBlock m p a (t.name ++ [0] ++ (pad ++ (body ++ rest))))
    (hname : (0 : UInt8) ∉ t.name) (hpad : Pads pad (t.name ++ [0]))
    (hbody : Body strings t.props t.children body)
    (hloop : LoopParses m p t.props t.children body)
    (hnodes : pools.nodeUsed + t.nodeCount ≤ dtbMaxNodes)
    (hprops : pools.propUsed + t.propCount ≤ dtbMaxProps) :
    ∃ k n next, (∀ fuel, k ≤ fuel → parseNode m p fuel pools a parent =
        .ok (some (n, next), ⟨pools.nodeUsed + t.nodeCount, pools.propUsed + t.propCount⟩)) ∧
      Parsed m n t ∧
      n.addressCells = lastWord addressCellsNames t.props (parent.elim 2 DtbNode.addressCells) ∧
      n.sizeCells = lastWord sizeCellsNames t.props (parent.elim 1 DtbNode.sizeCells) ∧
      InBlock m p next rest ∧
      next + rest.length = a + (t.name ++ [0] ++ (pad ++ (body ++ rest))).length := by
  rw [t.nodeCount_eq] at hnodes ⊢
  rw [t.propCount_eq] at hprops ⊢
  have hlen := hbody.head.1
  obtain ⟨next, hstop, -, hplace, hin', hend⟩ := hin.name hname hpad
    (by rw [List.length_append]; omega)
  have hholds := (holds_append.mp hin.holds).1
  have hhigh := hin'.high
  have hfits := hin'.fits
  have hsmall : dtbMaxProps < 4294967296 := by decide
  rw [List.length_append] at hhigh
  obtain ⟨kc, hcount⟩ := hbody.countProps 0 0 hin'.front (by omega) (by omega)
  have halloc : (if 0 < t.props.length then
      allocProps ⟨pools.nodeUsed + 1, pools.propUsed⟩ t.props.length
      else some (pools.propUsed, ⟨pools.nodeUsed + 1, pools.propUsed⟩)) =
      some (pools.propUsed, ⟨pools.nodeUsed + 1, pools.propUsed + t.props.length⟩) := by
    split
    · unfold allocProps
      rw [u32_of_lt (by dsimp only; omega), if_neg (by dsimp only; omega)]
    · rw [show t.props.length = 0 by omega]
      rfl
  let start : DtbNode := ⟨a, pools.nodeUsed, pools.propUsed, [], 0,
    parent.elim 2 DtbNode.addressCells, parent.elim 1 DtbNode.sizeCells, []⟩
  obtain ⟨kl, props, children, hparse, hparsed, hchildren⟩ := @hloop _ _
    ⟨pools.nodeUsed + 1, pools.propUsed + t.props.length⟩ start hin'.front
    (le_of_eq (Nat.zero_add _)) (by dsimp only; omega) (by dsimp only; omega)
  refine ⟨kc + kl + 1, grown start t.props props children, next + body.length, fun fuel hfuel => ?_,
    .mk hholds hname hparsed rfl hchildren, rfl, rfl, hin'.back hbody.whole, ?_⟩
  · obtain ⟨fuel, rfl⟩ := Nat.exists_eq_add_of_le hfuel
    rw [Nat.add_right_comm, parseNode, hstop, Outcome.ok_bind]
    dsimp only
    rw [hplace]
    unfold allocNode
    rw [if_neg (by omega)]
    dsimp only
    rw [show kc + kl + fuel = kl + fuel + kc by omega, hcount, if_pos rfl, Nat.zero_add,
      Outcome.ok_bind, halloc]
    dsimp only
    rw [hparse _ (by omega), Nat.add_assoc pools.nodeUsed, Nat.add_comm 1,
      Nat.add_assoc pools.propUsed]
  · rw [List.length_append] at hend
    omega

/-- The main loop parses every body, by induction on its encoding. -/
theorem Body.parseLoop {ps : List FdtProp} {cs : List FdtNode} {bytes : List UInt8}
    (hstrings : m.Holds p.stringBlock strings) (hsize : p.stringSize = strings.length)
    (h : Body strings ps cs bytes) : LoopParses m p ps cs bytes := by
  induction h with
  | done =>
    intro a propCount pools node hin _ _ _
    obtain ⟨hbound, hread, hnext, -⟩ := @InBlock.word m p a dtbEndNode [] hin (by decide)
    refine ⟨1, [], [], fun fuel hfuel => ?_, .nil, .nil⟩
    obtain ⟨fuel, rfl⟩ := Nat.exists_eq_add_of_le' hfuel
    rw [Leg.parseLoop, hbound, hread, Outcome.ofRead_some, Outcome.ok_bind, hnext, grown_nil]
    rfl
  | nop h ih =>
    intro a propCount pools node hin hcount hnodes hprops
    obtain ⟨hbound, hread, hnext, hrest⟩ := hin.word (n := dtbNop) (by decide)
    obtain ⟨k, props, children, hparse, hparsed⟩ := ih hrest hcount hnodes hprops
    refine ⟨k + 1, props, children, fun fuel hfuel => ?_, hparsed⟩
    obtain ⟨fuel, rfl⟩ := Nat.exists_eq_add_of_le' hfuel
    rw [← Nat.add_assoc, Leg.parseLoop, hbound, hread, Outcome.ofRead_some, Outcome.ok_bind, hnext]
    simp only [Bool.not_true, Bool.false_eq_true, if_false, if_true]
    rw [hparse _ (Nat.le_add_left _ _), List.length_append, be32_length, Nat.add_assoc]
  | @prop ps cs bytes q nameOff pad hname hpad h ih =>
    intro a propCount pools node hin hcount hnodes hprops
    obtain ⟨hbound, hread, hnext, hrest⟩ := hin.word (n := dtbPropToken) (by decide)
    rw [List.length_cons] at hcount
    obtain ⟨pr, hpr, hprop⟩ := parseProp_eq propCount node hrest hpad h hname hstrings
      hsize (by omega)
    have hin' := (hrest.prop hpad h.head.1).2.2.2.2.2.1
    have hmore : (node.props ++ [pr]).length + ps.length ≤ propCount := by
      rw [List.length_append, List.length_singleton]
      omega
    have hend : a + 4 + 8 + (q.data.length + pad.length) + bytes.length =
        a + (be32 dtbPropToken ++ (be32 q.data.length ++ (be32 nameOff ++
          (q.data ++ (pad ++ bytes))))).length := by
      simp only [List.length_append, be32_length]
      omega
    obtain ⟨k, props, children, hparse, hparsed, hchildren⟩ := @ih _ _ _
      { withProp q node with props := node.props ++ [pr] } hin' hmore hnodes hprops
    refine ⟨k + 1, pr :: props, children, fun fuel hfuel => ?_, .cons hpr hparsed, hchildren⟩
    obtain ⟨fuel, rfl⟩ := Nat.exists_eq_add_of_le' hfuel
    rw [← Nat.add_assoc, Leg.parseLoop, hbound, hread, Outcome.ofRead_some, Outcome.ok_bind, hnext]
    simp only [Bool.not_true, Bool.false_eq_true, if_false]
    rw [if_neg (by decide), if_neg (by decide), if_pos trivial, hprop, Outcome.ofRead_some,
      Outcome.ok_bind]
    dsimp only
    rw [hparse _ (Nat.le_add_left _ _), grown_prop, hend]
  | child c hname hpad hc h ihc ih =>
    intro a propCount pools node hin hcount hnodes hprops
    obtain ⟨hbound, hread, hnext, hrest⟩ := hin.word (n := dtbBeginNode) (by decide)
    rw [FdtNode.nodeCounts] at hnodes ⊢
    rw [FdtNode.propCounts] at hprops ⊢
    obtain ⟨kc, n, next, hnode, hparsed, -, -, hin', hend⟩ := parseNode_eq pools
      (some node) hrest hname hpad hc ihc (by omega) (by omega)
    obtain ⟨k, props, children, hparse, hprops', hchildren⟩ := @ih _ _
      ⟨pools.nodeUsed + c.nodeCount, pools.propUsed + c.propCount⟩
      { node with children := node.children ++ [n] } hin' hcount
      (by dsimp only; omega) (by dsimp only; omega)
    refine ⟨k + kc + 1, props, n :: children, fun fuel hfuel => ?_, hprops',
      .cons hparsed hchildren⟩
    obtain ⟨fuel, rfl⟩ := Nat.exists_eq_add_of_le' hfuel
    rw [← Nat.add_assoc, Leg.parseLoop, hbound, hread, Outcome.ofRead_some, Outcome.ok_bind, hnext]
    simp only [Bool.not_true, Bool.false_eq_true, if_false]
    rw [if_neg (by decide), if_neg (by decide), if_neg (by decide), if_pos trivial,
      hnode _ (by omega), Outcome.ok_bind]
    dsimp only
    rw [hparse _ (by omega), grown_child, Nat.add_assoc pools.nodeUsed,
      Nat.add_assoc pools.propUsed,
      hend, @List.length_append _ (be32 _), be32_length, Nat.add_assoc]

/-- The search for the first node passes over the `DTB_NOP`s in front of it. -/
theorem findRoot_nops {rest : List UInt8} (n : ℕ) : ∀ {a : ℕ},
    InBlock m p a (nops n ++ (be32 dtbBeginNode ++ rest)) →
    ∃ k next, (∀ fuel, k ≤ fuel → findRoot m p fuel a = .ok (some next)) ∧
      InBlock m p next rest := by
  induction n with
  | zero =>
    intro a hin
    obtain ⟨hbound, hread, hnext, hrest⟩ :=
      @InBlock.word m p a dtbBeginNode rest hin (by decide)
    refine ⟨1, a + 4, fun fuel hfuel => ?_, hrest⟩
    obtain ⟨fuel, rfl⟩ := Nat.exists_eq_add_of_le' hfuel
    rw [findRoot, hbound, hread, Outcome.ofRead_some, Outcome.ok_bind, hnext]
    rfl
  | succ n ih =>
    intro a hin
    rw [nops, List.replicate_succ, List.flatten_cons, List.append_assoc] at hin
    obtain ⟨hbound, hread, hnext, hrest⟩ := hin.word (n := dtbNop) (by decide)
    obtain ⟨k, next, hfind, hin'⟩ := ih hrest
    refine ⟨k + 1, next, fun fuel hfuel => ?_, hin'⟩
    obtain ⟨fuel, rfl⟩ := Nat.exists_eq_add_of_le' hfuel
    rw [← Nat.add_assoc, findRoot, hbound, hread, Outcome.ofRead_some, Outcome.ok_bind, hnext]
    simp only [Bool.not_true, Bool.false_eq_true, if_false, if_true]
    exact hfind _ (Nat.le_add_left _ _)

end Block

section MemoryNodes
variable {m : Readable} {n root : DtbNode} {t : FdtNode}

theorem findProp_isSome (name : List UInt8) (hname : (0 : UInt8) ∉ name) {props : List DtbProp}
    {ps : List FdtProp} (h : List.Forall₂ (ParsedProp m) props ps) :
    ∃ r, findProp m name props = some r ∧ ∀ pr ∈ r, ∃ q, ParsedProp m pr q := by
  induction h with
  | nil => exact ⟨none, rfl, fun pr hpr => nomatch hpr⟩
  | @cons pr q props ps hpr h ih =>
    rw [findProp, hpr.name.strcmpEq hpr.proper hname, Option.bind_eq_bind, Option.bind_some]
    by_cases heq : q.name = name
    · refine ⟨some pr, by simp [heq], fun pr' hpr' => ?_⟩
      obtain rfl := Option.some.inj hpr'
      exact ⟨q, hpr⟩
    · obtain ⟨r, hr, hall⟩ := ih
      exact ⟨r, by simp [heq, hr], hall⟩

/-- Whether a child is taken for a memory node. -/
theorem memoryReg_isSome (h : Parsed m n t) :
    ∃ r, memoryReg m n = some r ∧ ∀ reg ∈ r, ∃ q, ParsedProp m reg q := by
  obtain ⟨hname, -, hprops, -, -⟩ := h
  obtain ⟨dt, hdt, hdt'⟩ := findProp_isSome
    (ascii ['d', 'e', 'v', 'i', 'c', 'e', '_', 't', 'y', 'p', 'e']) (by decide) hprops
  obtain ⟨dt', hdash, hdash'⟩ := findProp_isSome
    (ascii ['d', 'e', 'v', 'i', 'c', 'e', '-', 't', 'y', 'p', 'e']) (by decide) hprops
  obtain ⟨reg, hreg, hreg'⟩ := findProp_isSome
    (ascii ['r', 'e', 'g']) (by decide) hprops
  have hdevice : ∃ r, deviceType m n = some r ∧ ∀ pr ∈ r, ∃ q, ParsedProp m pr q := by
    unfold deviceType dtbGetProp
    rw [hdt, Option.bind_eq_bind, Option.bind_some]
    cases dt with
    | none => exact ⟨dt', hdash, hdash'⟩
    | some pr => exact ⟨some pr, rfl, hdt'⟩
  obtain ⟨r, hr, hr'⟩ := hdevice
  have hother : ∃ other, otherDevice m r = some other := by
    cases r with
    | none => exact ⟨_, rfl⟩
    | some pr =>
      obtain ⟨q, hq⟩ := hr' pr rfl
      obtain ⟨l, hl, hzero⟩ := hq.stop
      obtain ⟨equal, hequal⟩ := hl.strcmpEq_isSome hzero
        (t := ascii ['m', 'e', 'm', 'o', 'r', 'y']) (by decide)
      rw [otherDevice, hequal]
      split
      · exact ⟨_, rfl⟩
      · exact ⟨_, rfl⟩
  obtain ⟨other, hother⟩ := hother
  unfold memoryReg
  rw [hname.startsWith (by decide), hr]
  simp only [Option.bind_eq_bind, Option.bind_some]
  rw [hother]
  unfold dtbGetProp
  rw [hreg]
  split
  · exact ⟨none, rfl, fun pr hpr => nomatch hpr⟩
  rw [Option.bind_some]
  split
  · exact ⟨none, rfl, fun pr hpr => nomatch hpr⟩
  · exact ⟨reg, rfl, hreg'⟩

/-- The entries of a `reg` property lie inside its data. -/
theorem extractEntries_isSome {ac sc : ℕ} {reg : DtbProp} {q : FdtProp} (h : ParsedProp m reg q)
    (hpos : 0 < ac + sc) (left : ℕ) : ∀ (i : ℕ) (memory : List (ℕ × ℕ)),
    (i + left) * ((ac + sc) * 4) ≤ reg.len →
    ∃ r, extractEntries m ac sc ((ac + sc) * 4) reg left i memory = some r := by
  induction left with
  | zero => exact fun _ _ _ => ⟨_, rfl⟩
  | succ left ih =>
    intro i memory hle
    have hfits := h.data.1
    have hlen := h.len
    have hentry : (i + (left + 1)) * ((ac + sc) * 4) =
        i * ((ac + sc) * 4) + (ac * 4 + sc * 4) + left * ((ac + sc) * 4) := by ring
    have hoff : u32 (i * ((ac + sc) * 4)) = i * ((ac + sc) * 4) := u32_of_lt (by omega)
    have hptr : u32 (reg.data + i * ((ac + sc) * 4)) = reg.data + i * ((ac + sc) * 4) :=
      u32_of_lt (by omega)
    let bytes : ℕ → UInt8 := fun j => q.data.getD j 0
    have hread (k : ℕ) (hk : k < (ac + sc) * 4) :
        m (u32 (reg.data + i * ((ac + sc) * 4) + k)) =
          some (bytes (i * ((ac + sc) * 4) + k)) := by
      rw [u32_of_lt (by omega), Nat.add_assoc, h.data.2 _ (by omega)]
      exact congrArg some (List.getElem_eq_getD 0)
    rw [extractEntries]
    split
    · rw [hoff, hptr]
      have hbase := @cellsFrom_value m bytes (reg.data + i * ((ac + sc) * 4))
        (i * ((ac + sc) * 4)) ac 0 fun k hk => by
          rw [Nat.zero_mul, Nat.add_zero]
          exact hread k (by omega)
      have hsize := @cellsFrom_value m bytes (reg.data + i * ((ac + sc) * 4))
        (i * ((ac + sc) * 4) + ac * 4) sc ac fun k hk => by
          rw [Nat.add_assoc, Nat.add_assoc (i * _)]
          exact hread (ac * 4 + k) (by omega)
      dsimp only
      rw [hbase, hsize]
      simp only [Option.bind_eq_bind, Option.bind_some]
      exact ih _ _ (by rw [Nat.add_right_comm, Nat.add_assoc i]; exact hle)
    · exact ⟨_, rfl⟩

/-- The memory map of a parsed tree can be read, if an entry of it has a size. -/
theorem extractMemory_isOk {ts : List FdtNode} (hac : root.addressCells ≤ 4)
    (hsc : root.sizeCells ≤ 4) (hpos : 0 < root.addressCells + root.sizeCells)
    {ns : List DtbNode} (h : List.Forall₂ (Parsed m) ns ts) :
    ∀ memory, ∃ r, extractMemory m root ns memory = .ok r := by
  induction h with
  | nil => exact fun memory => ⟨memory, rfl⟩
  | @cons n t ns ts hn h ih =>
    intro memory
    obtain ⟨r, hr, hreg⟩ := memoryReg_isSome hn
    rw [extractMemory, hr, Outcome.ofRead_some, Outcome.ok_bind]
    cases r with
    | none => exact ih memory
    | some reg =>
      obtain ⟨q, hq⟩ := hreg reg rfl
      have hsize : u32 (u32 (root.addressCells + root.sizeCells) * 4) =
          (root.addressCells + root.sizeCells) * 4 := by
        unfold u32
        omega
      dsimp only
      rw [hsize, if_neg (by omega)]
      obtain ⟨entries, hentries⟩ := extractEntries_isSome hq hpos
        (reg.len / ((root.addressCells + root.sizeCells) * 4)) 0 memory
        (by rw [Nat.zero_add]; exact Nat.div_mul_le_self _ _)
      rw [hentries, Outcome.ofRead_some, Outcome.ok_bind]
      exact ih entries

end MemoryNodes

section Places
variable {m : Readable} {n : DtbNode} {t : FdtNode}

theorem forall₂_getElem? {α β : Type} {R : α → β → Prop} {as : List α} {bs : List β}
    (h : List.Forall₂ R as bs) (i : ℕ) : Option.Rel R as[i]? bs[i]? := by
  induction h generalizing i with
  | nil => exact .none
  | cons hab h ih =>
    cases i with
    | zero => exact .some hab
    | succ i => exact ih i

/-- A parsed tree has nodes at the same places. -/
theorem Parsed.get? (h : Parsed m n t) (place : List ℕ) :
    Option.Rel (Parsed m) (n.get? place) (t.get? place) := by
  induction place generalizing n t with
  | nil => exact .some h
  | cons i place ih =>
    obtain ⟨-, -, -, -, hchildren⟩ := h
    have hi := forall₂_getElem? hchildren i
    rw [DtbNode.get?, FdtNode.get?]
    cases hn : n.children[i]? with
    | none =>
      rw [hn] at hi
      cases ht : t.children[i]? with
      | none => exact .none
      | some c => rw [ht] at hi; exact nomatch hi
    | some c =>
      rw [hn] at hi
      cases ht : t.children[i]? with
      | none => rw [ht] at hi; exact nomatch hi
      | some c' =>
        rw [ht] at hi
        cases hi with
        | some hc => exact ih hc

theorem Parsed.parent? (h : Parsed m n t) {place : List ℕ} (hne : place ≠ []) :
    Option.Rel (Parsed m) (DtbNode.parent? n place) (t.get? place.dropLast) := by
  rw [DtbNode.parent?, if_neg hne]
  exact h.get? _

end Places

/-- The words of the header, read one by one. -/
theorem DtbHeader.words {m : Readable} {base : ℕ} {h : DtbHeader} (hm : m.Holds base h.bytes)
    (htotal : h.totalsize < 4294967296) (hstruct : h.offDtStruct < 4294967296)
    (hstrings : h.offDtStrings < 4294967296) (hboot : h.bootCpuidPhys < 4294967296)
    (hsizeStrings : h.sizeDtStrings < 4294967296) (hsizeStruct : h.sizeDtStruct < 4294967296) :
    be32Read m base = some dtbMagic ∧ be32Read m (u32 (base + 4)) = some h.totalsize ∧
      be32Read m (u32 (base + 8)) = some h.offDtStruct ∧
      be32Read m (u32 (base + 12)) = some h.offDtStrings ∧
      be32Read m (u32 (base + 28)) = some h.bootCpuidPhys ∧
      be32Read m (u32 (base + 32)) = some h.sizeDtStrings ∧
      be32Read m (u32 (base + 36)) = some h.sizeDtStruct := by
  have hfits : base + 40 ≤ 4294967296 := hm.1
  have haddr (k : ℕ) (hk : k < 40) : u32 (base + k) = base + k := u32_of_lt (by omega)
  rw [haddr 4 (by decide), haddr 8 (by decide), haddr 12 (by decide), haddr 28 (by decide),
    haddr 32 (by decide), haddr 36 (by decide)]
  obtain ⟨h0, hm⟩ := holds_append.mp hm
  obtain ⟨h4, hm⟩ := holds_append.mp hm
  obtain ⟨h8, hm⟩ := holds_append.mp hm
  obtain ⟨h12, hm⟩ := holds_append.mp hm
  obtain ⟨-, hm⟩ := holds_append.mp hm
  obtain ⟨-, hm⟩ := holds_append.mp hm
  obtain ⟨-, hm⟩ := holds_append.mp hm
  obtain ⟨h28, hm⟩ := holds_append.mp hm
  obtain ⟨h32, h36⟩ := holds_append.mp hm
  simp only [be32_length, Nat.add_assoc, Nat.reduceAdd] at h4 h8 h12 h28 h32 h36
  exact ⟨h0.word (by decide), h4.word htotal, h8.word hstruct, h12.word hstrings, h28.word hboot,
    h32.word hsizeStrings, h36.word hsizeStruct⟩

section Correct
variable {header : DtbHeader} {t : FdtNode} {blob : List UInt8} {base nodePool propPool : ℕ}

/-- From the first node on: a block that encodes a tree is parsed. -/
theorem parseTree_eq {m : Readable} {p : Parser} {strings block : List UInt8} (bootCpuid : ℕ)
    (henc : EncodesBlock strings t block) (hblock : m.Holds p.structBlock block)
    (hsize : p.structSize = block.length) (hfits : p.structBlock + block.length < 4294967296)
    (hstrings : m.Holds p.stringBlock strings) (hstringSize : p.stringSize = strings.length)
    (hnodes : t.nodeCount ≤ dtbMaxNodes) (hprops : t.propCount ≤ dtbMaxProps)
    (hac : lastWord addressCellsNames t.props 2 ≤ 4) (hsc : lastWord sizeCellsNames t.props 1 ≤ 4)
    (hpos : 0 < lastWord addressCellsNames t.props 2 + lastWord sizeCellsNames t.props 1) :
    ∃ k tree, (∀ fuel, k ≤ fuel →
      parseTree m p fuel bootCpuid = .ok (.ok tree, ⟨t.nodeCount, t.propCount⟩)) ∧
        Parsed m tree.root t := by
  obtain ⟨before, pad, body, after, rest, hname, hpad, hbody, rfl⟩ := henc
  have hin : InBlock m p p.structBlock _ := ⟨hblock, le_refl _, by rw [hsize],
    by rw [Nat.sub_self]; exact dvd_zero 4, by rw [hsize]; exact hfits⟩
  obtain ⟨kf, next, hfind, hin'⟩ := findRoot_nops before hin
  obtain ⟨kp, root, stop, hparse, hparsed, hroot, hroot', -, -⟩ := parseNode_eq ⟨0, 0⟩
    none hin' hname hpad hbody (hbody.parseLoop hstrings hstringSize)
    (by rw [Nat.zero_add]; exact hnodes) (by rw [Nat.zero_add]; exact hprops)
  obtain ⟨-, -, hrootProps, -, hchildren⟩ := id hparsed
  obtain ⟨compat, hcompat, -⟩ := findProp_isSome
    (ascii ['c', 'o', 'm', 'p', 'a', 't', 'i', 'b', 'l', 'e']) (by decide) hrootProps
  obtain ⟨memory, hmemory⟩ := @extractMemory_isOk _ root _ (by rw [hroot]; exact hac)
    (by rw [hroot']; exact hsc) (by rw [hroot, hroot']; exact hpos) _ hchildren []
  rw [Nat.zero_add, Nat.zero_add] at hparse
  refine ⟨kf + kp,
    ⟨root, memory, bootCpuid, compat.elim 0 fun c => if 0 < c.len then c.data else 0⟩,
    fun fuel hfuel => ?_, hparsed⟩
  unfold parseTree
  rw [hfind fuel (by omega), Outcome.ok_bind]
  dsimp only
  rw [hparse fuel (by omega), Outcome.ok_bind]
  dsimp only
  unfold dtbGetProp
  rw [hcompat, Outcome.ofRead_some, Outcome.ok_bind, hmemory, Outcome.ok_bind]
  rfl

/-- `dtb_parse` of a blob that encodes a tree returns this tree, node by node. -/
theorem dtb_parse_encoded (henc : EncodesTree header t blob) (hbase : 0 < base)
    (hfits : base + blob.length < 4294967296) (hnodePool : nodePool ≠ 0) (hpropPool : propPool ≠ 0)
    (hnodes : t.nodeCount ≤ dtbMaxNodes) (hprops : t.propCount ≤ dtbMaxProps)
    (hac : lastWord addressCellsNames t.props 2 ≤ 4) (hsc : lastWord sizeCellsNames t.props 1 ≤ 4)
    (hpos : 0 < lastWord addressCellsNames t.props 2 + lastWord sizeCellsNames t.props 1) :
    ∃ k tree, (∀ fuel, k ≤ fuel →
        dtbParse (blobAt base blob) fuel base blob.length nodePool propPool =
          .ok (.ok tree, ⟨t.nodeCount, t.propCount⟩)) ∧
      Parsed (blobAt base blob) tree.root t ∧
      (∀ place, Option.Rel (Parsed (blobAt base blob)) (tree.root.get? place) (t.get? place)) ∧
      ∀ place, place ≠ [] → Option.Rel (Parsed (blobAt base blob))
        (DtbNode.parent? tree.root place) (t.get? place.dropLast) := by
  obtain ⟨hheader, hboot, htotal, hstructFits, hstringsFit, hblock⟩ := henc
  have hlen : 40 ≤ blob.length := hheader.length_le
  have hholds : (blobAt base blob).Holds base header.bytes :=
    @blobAt_holds base 0 _ _ hfits.le hheader (Nat.zero_le _)
  obtain ⟨hmagic, htotalRead, hstruct, hstrings, hbootRead, hsizeStrings, hsizeStruct⟩ :=
    DtbHeader.words hholds (by omega) (by omega) (by omega) hboot (by omega) (by omega)
  have hstructPtr : u32 (base + header.offDtStruct) = base + header.offDtStruct :=
    u32_of_lt (by omega)
  have hstringsPtr : u32 (base + header.offDtStrings) = base + header.offDtStrings :=
    u32_of_lt (by omega)
  have hblockLen : ((blob.drop header.offDtStruct).take header.sizeDtStruct).length =
      header.sizeDtStruct := by
    rw [List.length_take, List.length_drop]
    omega
  have hstringsLen : ((blob.drop header.offDtStrings).take header.sizeDtStrings).length =
      header.sizeDtStrings := by
    rw [List.length_take, List.length_drop]
    omega
  obtain ⟨k, tree, hparse, hparsed⟩ := parseTree_eq (m := blobAt base blob)
    (p := ⟨base + header.offDtStruct, base + header.offDtStrings, header.sizeDtStruct,
      header.sizeDtStrings⟩) header.bootCpuidPhys hblock
    (blobAt_holds hfits.le (List.take_prefix _ _) (by omega)) hblockLen.symm
    (by rw [hblockLen]; dsimp only; omega)
    (blobAt_holds hfits.le (List.take_prefix _ _) (by omega)) hstringsLen.symm hnodes hprops hac hsc
    hpos
  refine ⟨k, tree, fun fuel hfuel => ?_, hparsed, hparsed.get?,
    fun place hne => hparsed.parent? hne⟩
  unfold dtbParse
  rw [if_neg (by omega), if_neg (by omega), hmagic, htotalRead, hstruct, hstrings, hbootRead,
    hsizeStrings, hsizeStruct]
  simp only [Outcome.ofRead_some, Outcome.ok_bind]
  rw [if_neg (by decide), if_neg (by omega), u32_of_lt (by omega), if_neg (by omega),
    u32_of_lt (by omega), if_neg (by omega), if_neg (by simp [hnodePool, hpropPool]), hstructPtr,
    hstringsPtr, hparse fuel hfuel]

end Correct

/-- A root with a phandle and one child. -/
def smallTree : FdtNode :=
  ⟨[], [⟨ascii ['p', 'h', 'a', 'n', 'd', 'l', 'e'], [0, 0, 0, 7]⟩], [⟨[97], [], []⟩]⟩

def smallHeader : DtbHeader := ⟨100, 40, 92, 0, 17, 16, 0, 8, 52⟩

def smallBlob : List UInt8 := smallHeader.bytes ++ [
  0, 0, 0, 4,
  0, 0, 0, 1, 0, 0, 0, 0,
  0, 0, 0, 3, 0, 0, 0, 4, 0, 0, 0, 0, 0, 0, 0, 7,
  0, 0, 0, 4,
  0, 0, 0, 1, 97, 0, 0, 0,
  0, 0, 0, 2,
  0, 0, 0, 2,
  0, 0, 0, 9] ++ ascii ['p', 'h', 'a', 'n', 'd', 'l', 'e'] ++ [0]

theorem smallTree_encoded : EncodesTree smallHeader smallTree smallBlob := by
  have hchild : Body (ascii ['p', 'h', 'a', 'n', 'd', 'l', 'e'] ++ [0]) [] smallTree.children _ :=
    .nop (@Body.child _ _ _ _ ⟨[97], [], []⟩ [0, 0] _ (by decide) ⟨by decide, by decide⟩
      .done .done)
  have hbody : Body (ascii ['p', 'h', 'a', 'n', 'd', 'l', 'e'] ++ [0]) smallTree.props
      smallTree.children _ :=
    @Body.prop _ _ _ _ _ 0 [] ⟨by decide, by decide⟩ ⟨by decide, by decide⟩ hchild
  exact ⟨by decide, by decide, by decide, by decide, by decide, 1, [0, 0, 0], _, 0, [], by decide,
    ⟨by decide, by decide⟩, hbody, by decide⟩

theorem smallTree_parsed : ∃ k tree, (∀ fuel, k ≤ fuel →
      dtbParse (blobAt 64 smallBlob) fuel 64 100 4096 8192 = .ok (.ok tree, ⟨2, 1⟩)) ∧
    Parsed (blobAt 64 smallBlob) tree.root smallTree := by
  obtain ⟨k, tree, hparse, hparsed, -⟩ := @dtb_parse_encoded _ _ _ 64 4096 8192
    smallTree_encoded (by decide) (by decide) (by decide) (by decide) (by decide)
    (by decide) (by decide) (by decide) (by decide)
  exact ⟨k, tree, hparse, hparsed⟩

end Leg

import Mathlib.Logic.Relation
import Leg.Dtb.LookAhead

/-! The steps of `dtb_parse` from the start of the structure block on: the rounds of its three loops
and the calls of `parse_node`, each at a place of the block. A loop takes no step from the token at
which it stops. A step goes forward unless the end of its token wraps. -/
namespace Leg
open Outcome

/-- A node that `parse_node` works on: the number of properties that its look-ahead counted, and
what there is of the node. -/
structure OpenNode where
  propCount : ℕ
  node : DtbNode

def OpenNode.addChild (parent : OpenNode) (child : DtbNode) : OpenNode :=
  { parent with node := { parent.node with children := parent.node.children ++ [child] } }

/-- Where a parse is; `outer` are the nodes around, innermost first. -/
inductive ParseAt where
  /-- The search for the first node. -/
  | search (cur : ℕ)
  /-- `parse_node` is called with the place of a name. -/
  | entry (pools : Pools) (name : ℕ) (outer : List OpenNode)
  /-- The look-ahead of a node. -/
  | look (scan depth : ℕ)
  /-- The main loop of a node. -/
  | main (pools : Pools) (cur : ℕ) (node : OpenNode) (outer : List OpenNode)

def ParseAt.place : ParseAt → ℕ
  | .search cur => cur
  | .entry _ name _ => name
  | .look scan _ => scan
  | .main _ cur _ _ => cur

section Steps
variable (m : Readable) (p : Parser)

/-- Where the first token of a node is whose name goes from `name` to `stop`. -/
def firstToken (name stop : ℕ) : ℕ :=
  structAt p (wsub name p.structBlock + wsub stop name + 1)

/-- The node that `parse_node` starts with. -/
def newNode (name slot propSlot : ℕ) (outer : List OpenNode) : DtbNode :=
  let parent := outer.head?.map OpenNode.node
  ⟨name, slot, propSlot, [], 0, parent.elim 2 DtbNode.addressCells, parent.elim 1 DtbNode.sizeCells,
    []⟩

/-- What the look-ahead reserves of the properties. -/
def reserveProps (pools : Pools) (count : ℕ) : Option (ℕ × Pools) :=
  if 0 < count then allocProps pools count else some (pools.propUsed, pools)

/-- A step of the parse. The main loop takes none at the token of a property at which it gives up,
nor at the end of the root. -/
inductive ParseStep : ParseAt → ParseAt → Prop
  | searchNop {cur : ℕ} (hin : inStruct p cur 4 = true) (htok : be32Read m cur = some dtbNop) :
    ParseStep (.search cur) (.search (u32 (cur + 4)))
  | root {cur : ℕ} (hin : inStruct p cur 4 = true) (htok : be32Read m cur = some dtbBeginNode) :
    ParseStep (.search cur) (.entry ⟨0, 0⟩ (u32 (cur + 4)) [])
  | scan {pools pools' : Pools} {name stop slot : ℕ} {outer : List OpenNode}
    (hstop : nameEnd m p (p.structSize + 1) name = .ok stop)
    (hnode : allocNode pools = some (slot, pools')) :
    ParseStep (.entry pools name outer) (.look (firstToken p name stop) 0)
  | round {scan depth next depth' : ℕ} {counted : Bool}
    (hround : lookStep m p scan depth = .ok (.move next depth' counted)) :
    ParseStep (.look scan depth) (.look next depth')
  | tokens {pools pools' pools'' : Pools} {name stop slot fuel propCount propSlot : ℕ}
    {outer : List OpenNode} (hstop : nameEnd m p (p.structSize + 1) name = .ok stop)
    (hnode : allocNode pools = some (slot, pools'))
    (hcount : countProps m p fuel (firstToken p name stop) 0 0 = .ok propCount)
    (hprops : reserveProps pools' propCount = some (propSlot, pools'')) :
    ParseStep (.entry pools name outer) (.main pools'' (firstToken p name stop)
      ⟨propCount, newNode name slot propSlot outer⟩ outer)
  | word {pools : Pools} {cur tok : ℕ} {node : OpenNode} {outer : List OpenNode}
    (hin : inStruct p cur 4 = true) (htok : be32Read m cur = some tok)
    (hother : tok ∉ [dtbEndNode, dtbEnd, dtbPropToken, dtbBeginNode]) :
    ParseStep (.main pools cur node outer) (.main pools (u32 (cur + 4)) node outer)
  | prop {pools : Pools} {cur next : ℕ} {node : OpenNode} {node' : DtbNode} {outer : List OpenNode}
    (hin : inStruct p cur 4 = true) (htok : be32Read m cur = some dtbPropToken)
    (hprop : parseProp m p node.propCount (u32 (cur + 4)) node.node = some (some (node', next))) :
    ParseStep (.main pools cur node outer) (.main pools next { node with node := node' } outer)
  | child {pools : Pools} {cur : ℕ} {node : OpenNode} {outer : List OpenNode}
    (hin : inStruct p cur 4 = true) (htok : be32Read m cur = some dtbBeginNode) :
    ParseStep (.main pools cur node outer) (.entry pools (u32 (cur + 4)) (node :: outer))
  | close {pools : Pools} {cur tok : ℕ} {node parent : OpenNode} {outer : List OpenNode}
    (hin : inStruct p cur 4 = true) (htok : be32Read m cur = some tok)
    (hend : tok = dtbEndNode ∨ tok = dtbEnd) :
    ParseStep (.main pools cur node (parent :: outer))
      (.main pools (u32 (cur + 4)) (parent.addChild node.node) outer)

/-- The parse comes there. -/
def ParseReaches (s : ParseAt) : Prop :=
  Relation.ReflTransGen (ParseStep m p) (.search p.structBlock) s

/-- The property at a place, if one is there, ends behind its token: its length does not take the
end, rounded up to a whole word, round the address space to it or in front of it. -/
def PropSound (scan : ℕ) : Prop :=
  be32Read m scan = some dtbPropToken → ∀ plen, be32Read m (u32 (scan + 4)) = some plen →
    wsub scan p.structBlock + plen + 15 < 4294967296 ∨ 4294967285 ≤ plen

/-- The end of the name at a place, rounded up to a whole word, is an offset of the block. -/
def NameSound (name : ℕ) : Prop :=
  ∀ stop, nameEnd m p (p.structSize + 1) name = .ok stop →
    wsub stop p.structBlock + 4 < 4294967296

/-- What a step passes does not end in front of itself. -/
def ParseAt.Sound : ParseAt → Prop
  | .search _ => True
  | .entry _ name _ => NameSound m p name
  | .look scan _ =>
    PropSound m p scan ∧ (be32Read m scan = some dtbBeginNode → NameSound m p (u32 (scan + 4)))
  | .main _ cur _ _ => PropSound m p cur

end Steps

section Places
variable {m : Readable} {p : Parser} {scan next ptr len : ℕ}
variable (hbase : p.structBlock < 4294967296) (hsize : p.structSize < 4294967296)

theorem be32Read_lt {a w : ℕ} (h : be32Read m a = some w) : w < 4294967296 := by
  unfold be32Read at h
  obtain ⟨b0, -, h⟩ := Option.bind_eq_some_iff.mp h
  obtain ⟨b1, -, h⟩ := Option.bind_eq_some_iff.mp h
  obtain ⟨b2, -, h⟩ := Option.bind_eq_some_iff.mp h
  obtain ⟨b3, -, h⟩ := Option.bind_eq_some_iff.mp h
  have h0 := b0.toNat_lt
  have h1 := b1.toNat_lt
  have h2 := b2.toNat_lt
  have h3 := b3.toNat_lt
  obtain rfl := Option.some.inj h
  omega

include hbase in
theorem offset_structAt (off : ℕ) :
    wsub (structAt p off) p.structBlock = u32 (off + 3) / 4 * 4 := by
  have hmask : u32 (off + 3) &&& bnot 3 = u32 (off + 3) / 4 * 4 :=
    land_bnot_two_pow (k := 2) (u32_lt _) (by decide)
  have hlt := u32_lt (off + 3)
  rw [structAt, hmask]
  unfold wsub u32 at *
  omega

include hbase hsize in
theorem inStruct_bounds (h : inStruct p ptr len = true) (hptr : ptr < 4294967296)
    (hlen : len < 4294967296) (hpos : 0 < len) : p.structBlock ≤ ptr ∧
      ptr + len ≤ p.structBlock + p.structSize ∧ p.structBlock + p.structSize < 4294967296 := by
  unfold inStruct at h
  simp only [Bool.and_eq_true, decide_eq_true_eq] at h
  obtain ⟨⟨hlow, hend⟩, hwrap⟩ := h
  unfold u32 at hend hwrap
  omega

theorem WordPlace.lt (h : WordPlace p scan) : scan < 4294967296 := by
  obtain ⟨k, -, rfl⟩ := h
  exact u32_lt _

include hbase in
theorem WordPlace.whole (h : WordPlace p scan) : 4 ∣ wsub scan p.structBlock := by
  obtain ⟨k, hk, rfl⟩ := h
  refine ⟨k, ?_⟩
  unfold wsub u32
  omega

/-- The end of a name is not in front of it, and at most at the end of the block. -/
theorem nameEnd_bounds (fuel : ℕ) : ∀ {ptr stop : ℕ}, nameEnd m p fuel ptr = .ok stop →
    ptr < 4294967296 → ptr ≤ p.structBlock + p.structSize →
    p.structBlock < 4294967296 → p.structSize < 4294967296 →
    ptr ≤ stop ∧ stop ≤ p.structBlock + p.structSize := by
  induction fuel with
  | zero =>
    intro ptr stop h
    cases h
  | succ fuel ih =>
    intro ptr stop h hptr hle hbase hsize
    rw [nameEnd] at h
    split at h
    next hin =>
      obtain ⟨hlow, hhigh, hfits⟩ := inStruct_bounds hbase hsize hin hptr (by decide) (by decide)
      obtain ⟨b, -, h⟩ := bind_eq_ok.mp h
      split at h
      · obtain rfl := Outcome.ok.inj h
        exact ⟨le_refl _, hle⟩
      · rw [u32_of_lt (by omega)] at h
        obtain ⟨h1, h2⟩ := ih h (by omega) (by omega) hbase hsize
        exact ⟨by omega, h2⟩
    next =>
      obtain rfl := Outcome.ok.inj h
      exact ⟨le_refl _, hle⟩

include hbase hsize in
theorem nameEnd_ends (fuel : ℕ) : ∀ {ptr : ℕ}, ptr < 4294967296 →
    Ends (0 < fuel ∧ p.structBlock + p.structSize < fuel + ptr) (fun _ => True)
      (nameEnd m p fuel ptr) := by
  induction fuel with
  | zero =>
    intro ptr _ h
    exact Nat.lt_irrefl _ h.1
  | succ fuel ih =>
    intro ptr hptr
    rw [nameEnd]
    split
    next hin =>
      obtain ⟨hlow, hhigh, hfits⟩ := inStruct_bounds hbase hsize hin hptr (by decide) (by decide)
      refine ends_bind (ends_ofRead fun _ _ => trivial) fun b _ _ => ?_
      split
      · trivial
      · rw [u32_of_lt (by omega)]
        exact (ih (by omega)).mono (by omega) fun _ h => h
    · trivial

end Places

section Advance
variable {m : Readable} {p : Parser} {scan name stop : ℕ}

/-- The place behind a word that lies inside the block. -/
def NamePlace (p : Parser) (name : ℕ) : Prop :=
  ∃ scan, WordPlace p scan ∧ inStruct p scan 4 = true ∧ name = u32 (scan + 4)

theorem NamePlace.lt (hname : NamePlace p name) : name < 4294967296 := by
  obtain ⟨scan, -, -, rfl⟩ := hname
  exact u32_lt _

/-- Tokens begin at whole words, and so do names, behind a token inside the block. -/
def ParseAt.Placed (p : Parser) : ParseAt → Prop
  | .entry _ name _ => NamePlace p name
  | s => WordPlace p s.place

theorem firstToken_wordPlace : WordPlace p (firstToken p name stop) := structAt_wordPlace _

theorem structAt_congr {x y : ℕ} (h : u32 (x + 3) = u32 (y + 3)) : structAt p x = structAt p y := by
  rw [structAt, structAt, h]

theorem propSound_iff {plen : ℕ} (htok : be32Read m scan = some dtbPropToken)
    (hplen : be32Read m (u32 (scan + 4)) = some plen) :
    PropSound m p scan ↔ wsub scan p.structBlock + plen + 15 < 4294967296 ∨ 4294967285 ≤ plen := by
  constructor
  · intro hsound
    exact hsound htok plen hplen
  · intro hlen _ plen' hplen'
    obtain rfl := Option.some.inj (hplen.symm.trans hplen')
    exact hlen

theorem propSound_of_ne {tok : ℕ} (htok : be32Read m scan = some tok) (hne : tok ≠ dtbPropToken) :
    PropSound m p scan := by
  intro htok'
  exact absurd (Option.some.inj (htok.symm.trans htok')) hne

theorem nameSound_iff (hstop : nameEnd m p (p.structSize + 1) name = .ok stop) :
    NameSound m p name ↔ wsub stop p.structBlock + 4 < 4294967296 := by
  constructor
  · intro hsound
    exact hsound stop hstop
  · intro hend stop' hstop'
    obtain rfl := Outcome.ok.inj (hstop.symm.trans hstop')
    exact hend

/-- What a round of the look-ahead goes on behind: a name, a property, or a word. -/
theorem lookStep_cases {depth next depth' : ℕ} {counted : Bool}
    (h : lookStep m p scan depth = .ok (.move next depth' counted)) :
    inStruct p scan 4 = true ∧ ∃ tok, be32Read m scan = some tok ∧
      ((tok = dtbBeginNode ∧ ∃ stop, nameEnd m p (p.structSize + 1) (u32 (scan + 4)) = .ok stop ∧
        next = structAt p (wsub (u32 (stop + 1)) p.structBlock)) ∨
      (tok = dtbPropToken ∧ inStruct p (u32 (scan + 4)) 8 = true ∧
        ∃ plen, be32Read m (u32 (scan + 4)) = some plen ∧
          next = structAt p (wsub (u32 (u32 (scan + 4) + 8)) p.structBlock + plen)) ∨
      (tok ≠ dtbBeginNode ∧ tok ≠ dtbPropToken ∧ next = u32 (scan + 4))) := by
  rw [lookStep] at h
  split at h
  · cases h
  next hin =>
    rw [Bool.not_eq_true, Bool.not_eq_false'] at hin
    obtain ⟨tok, htok, h⟩ := bind_eq_ok.mp h
    rw [ofRead_eq_ok] at htok
    refine ⟨hin, tok, htok, ?_⟩
    dsimp only at h
    split at h
    next hnop =>
      cases h
      exact .inr (.inr ⟨by rw [hnop]; decide, by rw [hnop]; decide, rfl⟩)
    split at h
    next hend =>
      split at h
      · cases h
      · cases h
        exact .inr (.inr ⟨by rw [hend]; decide, by rw [hend]; decide, rfl⟩)
    split at h
    next hbegin =>
      obtain ⟨stop, hstop, h⟩ := bind_eq_ok.mp h
      cases h
      exact .inl ⟨hbegin, stop, hstop, rfl⟩
    next hbegin =>
      split at h
      next hprop =>
        split at h
        · cases h
        next hin' =>
          rw [Bool.not_eq_true, Bool.not_eq_false'] at hin'
          obtain ⟨plen, hplen, h⟩ := bind_eq_ok.mp h
          rw [ofRead_eq_ok] at hplen
          cases h
          exact .inr (.inl ⟨hprop, hin', plen, hplen, rfl⟩)
      next hprop =>
        split at h
        · cases h
        · cases h
          exact .inr (.inr ⟨hbegin, hprop, rfl⟩)

/-- Where the main loop goes on behind a property. -/
theorem parseProp_next {propCount cur next : ℕ} {node node' : DtbNode}
    (h : parseProp m p propCount cur node = some (some (node', next))) :
    inStruct p cur 8 = true ∧ ∃ plen, be32Read m cur = some plen ∧
      next = structAt p (wsub (u32 (cur + 8)) p.structBlock + plen) := by
  rw [parseProp] at h
  split at h
  · cases h
  next hin =>
    rw [Bool.not_eq_true, Bool.not_eq_false'] at hin
    refine ⟨hin, ?_⟩
    obtain ⟨plen, hplen, h⟩ := Option.bind_eq_some_iff.mp h
    obtain ⟨nameoff, -, h⟩ := Option.bind_eq_some_iff.mp h
    dsimp only at h
    split at h
    · cases h
    split at h
    · cases h
    obtain ⟨type, -, h⟩ := Option.bind_eq_some_iff.mp h
    obtain ⟨node'', -, h⟩ := Option.bind_eq_some_iff.mp h
    obtain ⟨-, rfl⟩ := Prod.mk.inj (Option.some.inj (Option.some.inj h))
    exact ⟨plen, hplen, rfl⟩

theorem ParseStep.placed {s s' : ParseAt} (h : ParseStep m p s s') (hs : s.Placed p) :
    s'.Placed p := by
  cases h with
  | searchNop hin htok => exact WordPlace.next hs
  | root hin htok => exact ⟨_, hs, hin, rfl⟩
  | scan hstop hnode => exact firstToken_wordPlace
  | round hround => exact (lookStep_move hround hs).1
  | tokens hstop hnode hcount hprops => exact firstToken_wordPlace
  | word hin htok hother => exact WordPlace.next hs
  | prop hin htok hprop =>
    obtain ⟨-, plen, -, rfl⟩ := parseProp_next hprop
    exact structAt_wordPlace _
  | child hin htok => exact ⟨_, hs, hin, rfl⟩
  | close hin htok hend => exact WordPlace.next hs

theorem ParseReaches.placed {s : ParseAt} (hbase : p.structBlock < 4294967296)
    (h : ParseReaches m p s) : s.Placed p := by
  induction h with
  | refl => exact ⟨0, by decide, (u32_of_lt hbase).symm⟩
  | tail _ hstep ih => exact hstep.placed ih

variable (hbase : p.structBlock < 4294967296) (hsize : p.structSize < 4294967296)
include hbase hsize

theorem word_advances (hscan : WordPlace p scan) (hin : inStruct p scan 4 = true) :
    wsub (u32 (scan + 4)) p.structBlock = wsub scan p.structBlock + 4 ∧
      wsub scan p.structBlock + 4 ≤ p.structSize := by
  obtain ⟨hlow, hhigh, hfits⟩ :=
    inStruct_bounds hbase hsize hin hscan.lt (by decide) (by decide)
  rw [u32_of_lt (by omega), wsub_of_le (by omega) (by omega), wsub_of_le hlow hscan.lt]
  omega

theorem NamePlace.le (hname : NamePlace p name) : p.structBlock ≤ name := by
  obtain ⟨scan, hscan, hin, rfl⟩ := hname
  obtain ⟨hlow, hhigh, hfits⟩ :=
    inStruct_bounds hbase hsize hin hscan.lt (by decide) (by decide)
  rw [u32_of_lt (by omega)]
  omega

theorem NamePlace.bounds (hname : NamePlace p name)
    (hstop : nameEnd m p (p.structSize + 1) name = .ok stop) :
    p.structBlock ≤ name ∧ name ≤ stop ∧ stop ≤ p.structBlock + p.structSize ∧
      p.structBlock + p.structSize < 4294967296 ∧ 4 ∣ name - p.structBlock := by
  obtain ⟨scan, hscan, hin, rfl⟩ := hname
  obtain ⟨hlow, hhigh, hfits⟩ :=
    inStruct_bounds hbase hsize hin hscan.lt (by decide) (by decide)
  obtain ⟨k, hk⟩ := hscan.whole hbase
  rw [wsub_of_le hlow hscan.lt] at hk
  rw [u32_of_lt (by omega)] at hstop ⊢
  obtain ⟨hle, hend⟩ := nameEnd_bounds _ hstop (by omega) hhigh hbase hsize
  exact ⟨by omega, hle, hend, hfits, k + 1, by omega⟩

theorem firstToken_eq (hname : NamePlace p name)
    (hstop : nameEnd m p (p.structSize + 1) name = .ok stop) :
    structAt p (wsub (u32 (stop + 1)) p.structBlock) = firstToken p name stop := by
  obtain ⟨hlow, hle, hhigh, hfits, -⟩ := hname.bounds hbase hsize hstop
  refine structAt_congr ?_
  unfold wsub u32
  omega

theorem offset_firstToken (hname : NamePlace p name)
    (hstop : nameEnd m p (p.structSize + 1) name = .ok stop) :
    wsub (firstToken p name stop) p.structBlock = u32 (wsub stop p.structBlock + 4) / 4 * 4 := by
  obtain ⟨hlow, hle, hhigh, hfits, -⟩ := hname.bounds hbase hsize hstop
  rw [firstToken, offset_structAt hbase]
  unfold wsub u32
  omega

theorem name_forward_iff (hname : NamePlace p name)
    (hstop : nameEnd m p (p.structSize + 1) name = .ok stop) :
    wsub name p.structBlock < wsub (firstToken p name stop) p.structBlock ↔
      NameSound m p name := by
  obtain ⟨hlow, hle, hhigh, hfits, k, hk⟩ := hname.bounds hbase hsize hstop
  have hs : wsub name p.structBlock = name - p.structBlock := wsub_of_le hlow (by omega)
  have he : wsub stop p.structBlock = stop - p.structBlock := wsub_of_le (by omega) (by omega)
  rw [nameSound_iff hstop, offset_firstToken hbase hsize hname hstop, hs, he]
  unfold u32
  omega

/-- A property is passed to behind its token if and only if its end does not wrap to it or in front
of it. -/
theorem prop_forward_iff {plen : ℕ} (hscan : WordPlace p scan) (hin : inStruct p scan 4 = true)
    (htok : be32Read m scan = some dtbPropToken) (hin' : inStruct p (u32 (scan + 4)) 8 = true)
    (hplen : be32Read m (u32 (scan + 4)) = some plen) :
    wsub scan p.structBlock < wsub (structAt p
      (wsub (u32 (u32 (scan + 4) + 8)) p.structBlock + plen)) p.structBlock ↔
      PropSound m p scan := by
  have hlen := be32Read_lt hplen
  rw [propSound_iff htok hplen]
  obtain ⟨hlow, hhigh, hfits⟩ :=
    inStruct_bounds hbase hsize hin hscan.lt (by decide) (by decide)
  rw [u32_of_lt (by omega : scan + 4 < 4294967296)] at hin' ⊢
  obtain ⟨-, hhigh', -⟩ := inStruct_bounds hbase hsize hin' (by omega) (by decide) (by decide)
  obtain ⟨k, hk⟩ := hscan.whole hbase
  have hs : wsub scan p.structBlock = scan - p.structBlock := wsub_of_le hlow hscan.lt
  have hx : wsub (u32 (scan + 4 + 8)) p.structBlock = scan + 12 - p.structBlock := by
    unfold wsub u32
    omega
  rw [offset_structAt hbase, hx]
  rw [hs] at hk ⊢
  unfold u32
  omega

/-- A round of the look-ahead goes forward if and only if what it passes does not end in front of
itself. -/
theorem round_forward_iff {depth next depth' : ℕ} {counted : Bool} (hscan : WordPlace p scan)
    (h : lookStep m p scan depth = .ok (.move next depth' counted)) :
    wsub scan p.structBlock < wsub next p.structBlock ↔ (ParseAt.look scan depth).Sound m p := by
  obtain ⟨hin, tok, htok, ⟨rfl, stop, hstop, rfl⟩ | ⟨rfl, hin', plen, hplen, rfl⟩ |
    ⟨hbegin, hprop, rfl⟩⟩ := lookStep_cases h
  · have hname : NamePlace p (u32 (scan + 4)) := ⟨scan, hscan, hin, rfl⟩
    have hword := (word_advances hbase hsize hscan hin).1
    have hsound : (ParseAt.look scan depth).Sound m p ↔ NameSound m p (u32 (scan + 4)) :=
      ⟨fun h => h.2 htok, fun h => ⟨propSound_of_ne htok (by decide), fun _ => h⟩⟩
    rw [firstToken_eq hbase hsize hname hstop, hsound, ← name_forward_iff hbase hsize hname hstop,
      hword, offset_firstToken hbase hsize hname hstop]
    -- the first token is behind the name or at the start of the block
    obtain ⟨hlow, hle, hhigh, hfits, -⟩ := hname.bounds hbase hsize hstop
    have hend : wsub stop p.structBlock = stop - p.structBlock := wsub_of_le (by omega) (by omega)
    have hbegin : wsub (u32 (scan + 4)) p.structBlock = u32 (scan + 4) - p.structBlock :=
      wsub_of_le hlow (by omega)
    unfold u32 at *
    omega
  · rw [prop_forward_iff hbase hsize hscan hin htok hin' hplen]
    exact ⟨fun h => ⟨h, fun hno => absurd (Option.some.inj (htok.symm.trans hno)) (by decide)⟩,
      fun h => h.1⟩
  · have hword := (word_advances hbase hsize hscan hin).1
    refine iff_of_true (by omega) ⟨propSound_of_ne htok hprop, fun hno => ?_⟩
    exact absurd (Option.some.inj (htok.symm.trans hno)) hbegin

/-- A step goes forward if and only if what it passes does not end in front of itself. -/
theorem ParseStep.forward_iff {s s' : ParseAt} (h : ParseStep m p s s') (hs : s.Placed p) :
    wsub s.place p.structBlock < wsub s'.place p.structBlock ↔ s.Sound m p := by
  have hword {cur : ℕ} (hcur : WordPlace p cur) (hin : inStruct p cur 4 = true) :
      wsub cur p.structBlock < wsub (u32 (cur + 4)) p.structBlock := by
    have hnext := (word_advances hbase hsize hcur hin).1
    omega
  cases h with
  | searchNop hin htok => exact iff_of_true (hword hs hin) trivial
  | root hin htok => exact iff_of_true (hword hs hin) trivial
  | scan hstop hnode => exact name_forward_iff hbase hsize hs hstop
  | round hround => exact round_forward_iff hbase hsize hs hround
  | tokens hstop hnode hcount hprops => exact name_forward_iff hbase hsize hs hstop
  | word hin htok hother =>
    exact iff_of_true (hword hs hin) (propSound_of_ne htok fun hprop => hother (by simp [hprop]))
  | prop hin htok hprop =>
    obtain ⟨hin', plen, hplen, rfl⟩ := parseProp_next hprop
    exact prop_forward_iff hbase hsize hs hin htok hin' hplen
  | child hin htok => exact iff_of_true (hword hs hin) (propSound_of_ne htok (by decide))
  | close hin htok hend =>
    refine iff_of_true (hword hs hin) (propSound_of_ne htok fun hprop => ?_)
    rcases hend with rfl | rfl <;> exact absurd hprop (by decide)

end Advance

end Leg

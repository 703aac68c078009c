import Leg.Libc.CString

/-! The parsed device tree of `dtb.h`. Strings and property data stay in the blob: a node and a
property hold their addresses. A pointer to a node is its place in the tree, the list of the
child numbers on the way down from the root. -/
namespace Leg

/-- `dtb_val_type_t`. -/
inductive DtbValType where
  | empty
  | u32
  | u64
  | string
  | strings
  | bytes
  | cells
  deriving DecidableEq

/-- `dtb_prop_t`. -/
structure DtbProp where
  name : ℕ
  data : ℕ
  len : ℕ
  type : DtbValType
  deriving DecidableEq

/-- `dtb_node_t`, with its properties and its list of children; `slot` is its index in the pool
of nodes, `propSlot` that of its first property in the pool of properties. -/
structure DtbNode where
  name : ℕ
  slot : ℕ
  propSlot : ℕ
  props : List DtbProp
  phandle : ℕ
  addressCells : ℕ
  sizeCells : ℕ
  children : List DtbNode

namespace DtbNode

mutual

/-- Trees are compared node by node. -/
def decEq : (a b : DtbNode) → Decidable (a = b)
  | ⟨a1, a2, a3, a4, a5, a6, a7, as⟩, ⟨b1, b2, b3, b4, b5, b6, b7, bs⟩ =>
    have := decEqList as bs
    decidable_of_iff (a1 = b1 ∧ a2 = b2 ∧ a3 = b3 ∧ a4 = b4 ∧ a5 = b5 ∧ a6 = b6 ∧ a7 = b7 ∧ as = bs)
      (by simp)

def decEqList : (as bs : List DtbNode) → Decidable (as = bs)
  | [], [] => isTrue rfl
  | [], _ :: _ => isFalse (by simp)
  | _ :: _, [] => isFalse (by simp)
  | a :: as, b :: bs =>
    have := decEq a b
    have := decEqList as bs
    decidable_of_iff (a = b ∧ as = bs) (by simp)

end

instance : DecidableEq DtbNode := decEq

/-- The node at a place below a node. -/
def get? (n : DtbNode) : List ℕ → Option DtbNode
  | [] => some n
  | i :: is => (n.children[i]?).bind fun c => c.get? is

/-- `node->parent`, for the node at a place below the root. -/
def parent? (root : DtbNode) (place : List ℕ) : Option DtbNode :=
  if place = [] then none else root.get? place.dropLast

end DtbNode

/-- The search of `dtb_get_prop` in the properties of a node. -/
def findProp (m : Readable) (name : List UInt8) : List DtbProp → Option (Option DtbProp)
  | [] => some none
  | p :: ps => do
    if ← strcmpEq m p.name name then return some p else findProp m name ps

def dtbGetProp (m : Readable) (n : DtbNode) (name : List UInt8) : Option (Option DtbProp) :=
  findProp m name n.props

end Leg

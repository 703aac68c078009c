import Leg.Dtb.Parse

/-! Flattened device trees: trees of named nodes and properties, and the blobs that encode them by
the grammar of the tokens, with any number of `DTB_NOP`s between them. -/
namespace Leg

structure FdtProp where
  name : List UInt8
  data : List UInt8

structure FdtNode where
  name : List UInt8
  props : List FdtProp
  children : List FdtNode

/-- The four bytes of a word, high byte first. -/
def be32 (n : ℕ) : List UInt8 :=
  [UInt8.ofNat (n / 16777216), UInt8.ofNat (n / 65536), UInt8.ofNat (n / 256), UInt8.ofNat n]

/-- The word that four bytes stand for. -/
def be32Value : List UInt8 → ℕ
  | [a, b, c, d] => a.toNat * 16777216 + b.toNat * 65536 + c.toNat * 256 + d.toNat
  | _ => 0

@[simp] theorem be32_length (n : ℕ) : (be32 n).length = 4 := rfl

namespace FdtNode

mutual

/-- The nodes of a tree. -/
def nodeCount : FdtNode → ℕ
  | ⟨_, _, cs⟩ => nodeCounts cs + 1

def nodeCounts : List FdtNode → ℕ
  | [] => 0
  | c :: cs => nodeCount c + nodeCounts cs

end

mutual

/-- The properties of a tree. -/
def propCount : FdtNode → ℕ
  | ⟨_, ps, cs⟩ => ps.length + propCounts cs

def propCounts : List FdtNode → ℕ
  | [] => 0
  | c :: cs => propCount c + propCounts cs

end

/-- The node at a place below a node. -/
def get? (n : FdtNode) : List ℕ → Option FdtNode
  | [] => some n
  | i :: is => (n.children[i]?).bind fun c => c.get? is

end FdtNode

/-- The value of the last property of four bytes with one of the names, or the given one. -/
def lastWord (names : List (List UInt8)) : List FdtProp → ℕ → ℕ
  | [], value => value
  | p :: ps, value => lastWord names ps
    (if p.name ∈ names ∧ p.data.length = 4 then be32Value p.data else value)

def addressCellsNames : List (List UInt8) :=
  [ascii ['#', 'a', 'd', 'd', 'r', 'e', 's', 's', '-', 'c', 'e', 'l', 'l', 's']]

def sizeCellsNames : List (List UInt8) :=
  [ascii ['#', 's', 'i', 'z', 'e', '-', 'c', 'e', 'l', 'l', 's']]

def phandleNames : List (List UInt8) := [ascii ['p', 'h', 'a', 'n', 'd', 'l', 'e'],
  ascii ['l', 'i', 'n', 'u', 'x', ',', 'p', 'h', 'a', 'n', 'd', 'l', 'e']]

/-- The padding takes the bytes to the next whole word. -/
def Pads (pad bytes : List UInt8) : Prop := pad.length < 4 ∧ 4 ∣ bytes.length + pad.length

/-- The terminated name lies at an offset of the block of strings. -/
def NameAt (strings : List UInt8) (off : ℕ) (name : List UInt8) : Prop :=
  (0 : UInt8) ∉ name ∧ (name ++ [0]) <+: strings.drop off

/-- The bytes encode the properties and children of a node, up to its `DTB_END_NODE`. -/
inductive Body (strings : List UInt8) : List FdtProp → List FdtNode → List UInt8 → Prop
  | done : Body strings [] [] (be32 dtbEndNode)
  | nop {ps cs bytes} (h : Body strings ps cs bytes) : Body strings ps cs (be32 dtbNop ++ bytes)
  | prop {ps cs bytes} (p : FdtProp) {nameOff : ℕ} {pad : List UInt8}
      (hname : NameAt strings nameOff p.name) (hpad : Pads pad p.data)
      (h : Body strings ps cs bytes) : Body strings (p :: ps) cs
        (be32 dtbPropToken ++
          (be32 p.data.length ++ (be32 nameOff ++ (p.data ++ (pad ++ bytes)))))
  | child {ps cs bytes} (c : FdtNode) {pad body : List UInt8} (hname : (0 : UInt8) ∉ c.name)
      (hpad : Pads pad (c.name ++ [0])) (hc : Body strings c.props c.children body)
      (h : Body strings ps cs bytes) : Body strings ps (c :: cs)
        (be32 dtbBeginNode ++ (c.name ++ [0] ++ (pad ++ (body ++ bytes))))

/-- Some `DTB_NOP`s. -/
def nops (n : ℕ) : List UInt8 := (List.replicate n (be32 dtbNop)).flatten

/-- The structure block encodes the tree, up to its `DTB_END`. -/
def EncodesBlock (strings : List UInt8) (t : FdtNode) (block : List UInt8) : Prop :=
  ∃ before pad body after rest, (0 : UInt8) ∉ t.name ∧ Pads pad (t.name ++ [0]) ∧
    Body strings t.props t.children body ∧ block = nops before ++
      (be32 dtbBeginNode ++ (t.name ++ [0] ++ (pad ++ (body ++ (nops after ++
        (be32 dtbEnd ++ rest))))))

/-- The fields of `dtb_header`. -/
structure DtbHeader where
  totalsize : ℕ
  offDtStruct : ℕ
  offDtStrings : ℕ
  offMemRsvmap : ℕ
  version : ℕ
  lastCompVersion : ℕ
  bootCpuidPhys : ℕ
  sizeDtStrings : ℕ
  sizeDtStruct : ℕ

def dtbMagic : ℕ := 0xd00dfeed

/-- The header, with its magic number. -/
def DtbHeader.bytes (h : DtbHeader) : List UInt8 :=
  be32 dtbMagic ++ (be32 h.totalsize ++ (be32 h.offDtStruct ++ (be32 h.offDtStrings ++
    (be32 h.offMemRsvmap ++ (be32 h.version ++ (be32 h.lastCompVersion ++
      (be32 h.bootCpuidPhys ++ (be32 h.sizeDtStrings ++ be32 h.sizeDtStruct))))))))

/-- The blob encodes the tree, with its blocks where the header says. -/
structure EncodesTree (h : DtbHeader) (t : FdtNode) (blob : List UInt8) : Prop where
  header : h.bytes <+: blob
  boot : h.bootCpuidPhys < 4294967296
  total : h.totalsize ≤ blob.length
  structFits : h.offDtStruct + h.sizeDtStruct ≤ h.totalsize
  stringsFit : h.offDtStrings + h.sizeDtStrings ≤ h.totalsize
  block : EncodesBlock ((blob.drop h.offDtStrings).take h.sizeDtStrings) t
    ((blob.drop h.offDtStruct).take h.sizeDtStruct)

end Leg

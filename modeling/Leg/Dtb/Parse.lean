import Leg.Lib.Outcome
import Leg.Dtb.Regs

/-! `dtb_parse`: the recursive descent of `parse_node` with its look-ahead over the properties,
what it makes of a property, and the memory map. Each loop and each call takes a step of the
fuel. -/
namespace Leg

def dtbMaxNodes : ℕ := 256

def dtbMaxProps : ℕ := 1024

def dtbBeginNode : ℕ := 1

def dtbEndNode : ℕ := 2

/-- `DTB_PROP`. -/
def dtbPropToken : ℕ := 3

def dtbNop : ℕ := 4

def dtbEnd : ℕ := 9

/-- The part of `parser_t` that a parse does not change. -/
structure Parser where
  structBlock : ℕ
  stringBlock : ℕ
  structSize : ℕ
  stringSize : ℕ

/-- How much of the pools is used: `node_used` and `prop_used`. -/
structure Pools where
  nodeUsed : ℕ
  propUsed : ℕ
  deriving DecidableEq

/-- `alloc_node`: the slot of the node. -/
def allocNode (pools : Pools) : Option (ℕ × Pools) :=
  if dtbMaxNodes ≤ pools.nodeUsed then none
  else some (pools.nodeUsed, { pools with nodeUsed := pools.nodeUsed + 1 })

/-- `alloc_props`: the slot of the first property. -/
def allocProps (pools : Pools) (count : ℕ) : Option (ℕ × Pools) :=
  if dtbMaxProps < u32 (pools.propUsed + count) then none
  else some (pools.propUsed, { pools with propUsed := u32 (pools.propUsed + count) })

def inStruct (p : Parser) (ptr len : ℕ) : Bool :=
  p.structBlock ≤ ptr && u32 (ptr + len) ≤ u32 (p.structBlock + p.structSize) &&
    ptr ≤ u32 (ptr + len)

/-- The place in the structure block at an offset, rounded up to a whole word. -/
def structAt (p : Parser) (off : ℕ) : ℕ := u32 (p.structBlock + (u32 (off + 3) &&& bnot 3))

/-- The names of `u32_names`. -/
def u32Names : List (List UInt8) := [
  ascii ['#', 'a', 'd', 'd', 'r', 'e', 's', 's', '-', 'c', 'e', 'l', 'l', 's'],
  ascii ['#', 's', 'i', 'z', 'e', '-', 'c', 'e', 'l', 'l', 's'],
  ascii ['#', 'i', 'n', 't', 'e', 'r', 'r', 'u', 'p', 't', '-', 'c', 'e', 'l', 'l', 's'],
  ascii ['i', 'n', 't', 'e', 'r', 'r', 'u', 'p', 't', '-', 'p', 'a', 'r', 'e', 'n', 't'],
  ascii ['p', 'h', 'a', 'n', 'd', 'l', 'e'],
  ascii ['l', 'i', 'n', 'u', 'x', ',', 'p', 'h', 'a', 'n', 'd', 'l', 'e'],
  ascii ['c', 'l', 'o', 'c', 'k', '-', 'f', 'r', 'e', 'q', 'u', 'e', 'n', 'c', 'y'],
  ascii ['t', 'i', 'm', 'e', 'b', 'a', 's', 'e', '-', 'f', 'r', 'e', 'q', 'u', 'e', 'n', 'c', 'y'],
  ascii ['v', 'i', 'r', 't', 'u', 'a', 'l', '-', 'r', 'e', 'g'],
  ascii ['c', 'a', 'c', 'h', 'e', '-', 'l', 'i', 'n', 'e', '-', 's', 'i', 'z', 'e'],
  ascii ['c', 'a', 'c', 'h', 'e', '-', 's', 'e', 't', 's'],
  ascii ['c', 'a', 'c', 'h', 'e', '-', 's', 'i', 'z', 'e']]

section Types
variable (m : Readable)

/-- The string at an address is one of the names. -/
def namedAny (name : ℕ) : List (List UInt8) → Option Bool
  | [] => some false
  | s :: ss => do
    if ← strcmpEq m name s then return true else namedAny name ss

/-- The loop that sets `all_str`, over the bytes that are left. -/
def allStr (data : ℕ) : (left i : ℕ) → Option Bool
  | 0, _ => some true
  | left + 1, i => do
    let c ← m (u32 (data + i))
    if c ≠ 0 ∧ (c < 0x20 ∨ 0x7e < c) then return false else allStr data left (i + 1)

/-- The loop that counts the NUL bytes. -/
def countNulls (data : ℕ) : (left i nulls : ℕ) → Option ℕ
  | 0, _, nulls => some nulls
  | left + 1, i, nulls => do
    let c ← m (u32 (data + i))
    countNulls data left (i + 1) (if c = 0 then nulls + 1 else nulls)

/-- The end of `guess_type`, for data that is no string. -/
def guessCells (len : ℕ) : DtbValType := if len % 4 = 0 then .cells else .bytes

def guessType (name data len : ℕ) : Option DtbValType := do
  if len = 0 then return .empty
  if (← namedAny m name u32Names) && len = 4 then return .u32
  if (← strcmpEq m name (ascii ['c', 'l', 'o', 'c', 'k', '-', 'o', 'u', 't', 'p', 'u', 't', '-',
    'n', 'a', 'm', 'e', 's'])) && len = 8 then return .u64
  if ← allStr m data len 0 then
    let last ← m (u32 (data + len - 1))
    if last = 0 then
      let nulls ← countNulls m data len 0 0
      return if 1 < nulls then .strings else .string
    else return guessCells len
  else return guessCells len

/-- The fields of a node that a property of four bytes sets. -/
def cellProps (name data len : ℕ) (node : DtbNode) : Option DtbNode := do
  if (← strcmpEq m name (ascii ['#', 'a', 'd', 'd', 'r', 'e', 's', 's', '-', 'c', 'e', 'l', 'l',
    's'])) && len = 4 then
    let cells ← be32Read m data
    return { node with addressCells := cells }
  else if (← strcmpEq m name (ascii ['#', 's', 'i', 'z', 'e', '-', 'c', 'e', 'l', 'l', 's'])) &&
    len = 4 then
    let cells ← be32Read m data
    return { node with sizeCells := cells }
  else if (← namedAny m name [ascii ['p', 'h', 'a', 'n', 'd', 'l', 'e'],
    ascii ['l', 'i', 'n', 'u', 'x', ',', 'p', 'h', 'a', 'n', 'd', 'l', 'e']]) && len = 4 then
    let phandle ← be32Read m data
    return { node with phandle := phandle }
  else return node

end Types

section Nodes
variable (m : Readable) (p : Parser)

/-- The loop over the characters of a node's name, up to its terminator or the end of the
block. -/
def nameEnd : (fuel ptr : ℕ) → Outcome ℕ
  | 0, _ => .outOfSteps
  | fuel + 1, ptr =>
    if inStruct p ptr 1 then do
      let b ← Outcome.ofRead (m ptr)
      if b = 0 then return ptr else nameEnd fuel (u32 (ptr + 1))
    else .ok ptr

/-- The look-ahead of `parse_node`, which counts the properties. -/
def countProps : (fuel scan depth count : ℕ) → Outcome ℕ
  | 0, _, _, _ => .outOfSteps
  | fuel + 1, scan, depth, count =>
    if !inStruct p scan 4 then .ok count
    else do
      let tok ← Outcome.ofRead (be32Read m scan)
      let scan := u32 (scan + 4)
      if tok = dtbNop then countProps fuel scan depth count
      else if tok = dtbEndNode then
        if depth = 0 then .ok count else countProps fuel scan (depth - 1) count
      else if tok = dtbBeginNode then do
        let stop ← nameEnd m p (p.structSize + 1) scan
        let off := wsub (u32 (stop + 1)) p.structBlock
        countProps fuel (structAt p off) (u32 (depth + 1)) count
      else if tok = dtbPropToken then
        if !inStruct p scan 8 then .ok count
        else do
          let plen ← Outcome.ofRead (be32Read m scan)
          let off := wsub (u32 (scan + 8)) p.structBlock
          countProps fuel (structAt p (off + plen)) depth
            (if depth = 0 then u32 (count + 1) else count)
      else if tok = dtbEnd then .ok count
      else countProps fuel scan depth count

/-- What the main loop makes of a property: the node with it and the place after it, or nothing
where `parse_node` gives up. -/
def parseProp (propCount cur : ℕ) (node : DtbNode) : Option (Option (DtbNode × ℕ)) := do
  if !inStruct p cur 8 then return none
  let plen ← be32Read m cur
  let nameoff ← be32Read m (u32 (cur + 4))
  if p.stringSize ≤ nameoff then return none
  let name := u32 (p.stringBlock + nameoff)
  let data := u32 (cur + 8)
  let off := wsub data p.structBlock
  if propCount ≤ node.props.length then return none
  let type ← guessType m name data plen
  let node ← cellProps m name data plen node
  return some ({ node with props := node.props ++ [⟨name, data, plen, type⟩] },
    structAt p (off + plen))

mutual

/-- `parse_node`: the node and the place after it, or nothing where it gives up; and what is used
of the pools then. -/
def parseNode : ℕ → Pools → ℕ → Option DtbNode → Outcome (Option (DtbNode × ℕ) × Pools)
  | 0, _, _, _ => .outOfSteps
  | fuel + 1, pools, name, parent => do
    let stop ← nameEnd m p (p.structSize + 1) name
    let nameOffset := wsub name p.structBlock
    let nameLen := wsub stop name
    let cur := structAt p (nameOffset + nameLen + 1)
    match allocNode pools with
    | none => return (none, pools)
    | some (slot, pools) =>
      let ac := parent.elim 2 DtbNode.addressCells
      let sc := parent.elim 1 DtbNode.sizeCells
      let propCount ← countProps m p fuel cur 0 0
      match if 0 < propCount then allocProps pools propCount else some (pools.propUsed, pools) with
      | none => return (none, pools)
      | some (propSlot, pools) =>
        parseLoop fuel pools propCount cur ⟨name, slot, propSlot, [], 0, ac, sc, []⟩

/-- The main loop of `parse_node`. -/
def parseLoop : ℕ → Pools → ℕ → ℕ → DtbNode → Outcome (Option (DtbNode × ℕ) × Pools)
  | 0, _, _, _, _ => .outOfSteps
  | fuel + 1, pools, propCount, cur, node =>
    if !inStruct p cur 4 then .ok (none, pools)
    else do
      let tok ← Outcome.ofRead (be32Read m cur)
      let cur := u32 (cur + 4)
      if tok = dtbNop then parseLoop fuel pools propCount cur node
      else if tok = dtbEndNode ∨ tok = dtbEnd then return (some (node, cur), pools)
      else if tok = dtbPropToken then
        match ← Outcome.ofRead (parseProp m p propCount cur node) with
        | none => return (none, pools)
        | some (node, cur) => parseLoop fuel pools propCount cur node
      else if tok = dtbBeginNode then
        match ← parseNode fuel pools cur (some node) with
        | (none, pools) => return (none, pools)
        | (some (child, cur), pools) =>
          parseLoop fuel pools propCount cur { node with children := node.children ++ [child] }
      else parseLoop fuel pools propCount cur node

end

/-- The search of `dtb_parse` for the first node. -/
def findRoot : (fuel cur : ℕ) → Outcome (Option ℕ)
  | 0, _ => .outOfSteps
  | fuel + 1, cur =>
    if !inStruct p cur 4 then .ok none
    else do
      let tok ← Outcome.ofRead (be32Read m cur)
      if tok = dtbNop then findRoot fuel (u32 (cur + 4))
      else if tok = dtbBeginNode then return some (u32 (cur + 4))
      else return none

end Nodes

/-- The capacity of `tree->memory`. -/
def dtbMemoryMax : ℕ := 8

/-- The device type of a child, under either spelling. -/
def deviceType (m : Readable) (n : DtbNode) : Option (Option DtbProp) := do
  match ← dtbGetProp m n (ascii ['d', 'e', 'v', 'i', 'c', 'e', '_', 't', 'y', 'p', 'e']) with
  | some dt => return some dt
  | none => dtbGetProp m n (ascii ['d', 'e', 'v', 'i', 'c', 'e', '-', 't', 'y', 'p', 'e'])

/-- The device type is there and is not `memory`. -/
def otherDevice (m : Readable) : Option DtbProp → Option Bool
  | none => some false
  | some dt =>
    if dt.len = 0 then some true
    else (strcmpEq m dt.data (ascii ['m', 'e', 'm', 'o', 'r', 'y'])).map (! ·)

/-- The `reg` property of a child that `extract_memory` takes for a memory node. -/
def memoryReg (m : Readable) (n : DtbNode) : Option (Option DtbProp) := do
  if !(← startsWith m n.name (ascii ['m', 'e', 'm', 'o', 'r', 'y'])) then return none
  let dt ← deviceType m n
  if ← otherDevice m dt then return none
  dtbGetProp m n (ascii ['r', 'e', 'g'])

/-- The inner loop of `extract_memory`, with `n` entries left. -/
def extractEntries (m : Readable) (ac sc entryBytes : ℕ) (reg : DtbProp) :
    (n i : ℕ) → List (ℕ × ℕ) → Option (List (ℕ × ℕ))
  | 0, _, memory => some memory
  | n + 1, i, memory =>
    if memory.length < dtbMemoryMax then do
      let p := u32 (reg.data + u32 (i * entryBytes))
      let base ← cellsFrom m p ac 0 0
      let size ← cellsFrom m p sc ac 0
      extractEntries m ac sc entryBytes reg n (i + 1) (memory ++ [(base, size)])
    else some memory

/-- `extract_memory`, over the children that are left. -/
def extractMemory (m : Readable) (root : DtbNode) :
    List DtbNode → List (ℕ × ℕ) → Outcome (List (ℕ × ℕ))
  | [], memory => .ok memory
  | n :: ns, memory => do
    match ← Outcome.ofRead (memoryReg m n) with
    | none => extractMemory m root ns memory
    | some reg =>
      let ac := root.addressCells
      let sc := root.sizeCells
      let entryBytes := u32 (u32 (ac + sc) * 4)
      if entryBytes = 0 then .divByZero
      else do
        let entries := reg.len / entryBytes
        let memory ← Outcome.ofRead (extractEntries m ac sc entryBytes reg entries 0 memory)
        extractMemory m root ns memory

/-- `dtb_err_t`, without `DTB_OK`. -/
inductive DtbErr where
  | null
  | magic
  | version
  | truncated
  | nomem
  | overflow
  | corrupt
  deriving DecidableEq

/-- `dtb_tree_t`; the list is `memory[0 .. memory_count)`. -/
structure DtbTree where
  root : DtbNode
  memory : List (ℕ × ℕ)
  bootCpuid : ℕ
  compatible : ℕ
  deriving DecidableEq

/-- What `dtb_parse` returns and leaves in the tree. -/
inductive DtbResult where
  | err (e : DtbErr)
  | ok (tree : DtbTree)
  deriving DecidableEq

/-- `dtb_parse` from the first node on. -/
def parseTree (m : Readable) (p : Parser) (fuel bootCpuid : ℕ) : Outcome (DtbResult × Pools) := do
  match ← findRoot m p fuel p.structBlock with
  | none => return (.err .corrupt, ⟨0, 0⟩)
  | some cur =>
    match ← parseNode m p fuel ⟨0, 0⟩ cur none with
    | (none, pools) => return (.err .corrupt, pools)
    | (some (root, _), pools) =>
      let compat ← Outcome.ofRead
        (dtbGetProp m root (ascii ['c', 'o', 'm', 'p', 'a', 't', 'i', 'b', 'l', 'e']))
      let compatible := compat.elim 0 fun c => if 0 < c.len then c.data else 0
      let memory ← extractMemory m root root.children []
      return (.ok ⟨root, memory, bootCpuid, compatible⟩, pools)

/-- `dtb_parse`, with the two pools that the allocator returns. -/
def dtbParse (m : Readable) (fuel blob blobLen nodePool propPool : ℕ) :
    Outcome (DtbResult × Pools) :=
  if blob = 0 then .ok (.err .null, ⟨0, 0⟩)
  else if blobLen < 40 then .ok (.err .truncated, ⟨0, 0⟩)
  else do
    let magic ← Outcome.ofRead (be32Read m blob)
    if magic ≠ 0xd00dfeed then return (.err .magic, ⟨0, 0⟩)
    else
      let totalsize ← Outcome.ofRead (be32Read m (u32 (blob + 4)))
      let offStruct ← Outcome.ofRead (be32Read m (u32 (blob + 8)))
      let offStrings ← Outcome.ofRead (be32Read m (u32 (blob + 12)))
      let bootCpuid ← Outcome.ofRead (be32Read m (u32 (blob + 28)))
      let sizeStrings ← Outcome.ofRead (be32Read m (u32 (blob + 32)))
      let sizeStruct ← Outcome.ofRead (be32Read m (u32 (blob + 36)))
      if blobLen < totalsize then return (.err .truncated, ⟨0, 0⟩)
      else if totalsize < u32 (offStruct + sizeStruct) then return (.err .truncated, ⟨0, 0⟩)
      else if totalsize < u32 (offStrings + sizeStrings) then return (.err .truncated, ⟨0, 0⟩)
      else if nodePool = 0 ∨ propPool = 0 then return (.err .nomem, ⟨0, 0⟩)
      else
        parseTree m ⟨u32 (blob + offStruct), u32 (blob + offStrings), sizeStruct, sizeStrings⟩ fuel
          bootCpuid

/-- A successful parse went through the header to the first node. -/
theorem dtbParse_tree {m : Readable} {fuel blob blobLen nodePool propPool : ℕ} {tree : DtbTree}
    {pools : Pools}
    (h : dtbParse m fuel blob blobLen nodePool propPool = .ok (.ok tree, pools)) :
    ∃ p bootCpuid, parseTree m p fuel bootCpuid = .ok (.ok tree, pools) := by
  have hno (e : DtbErr) : (.ok (.err e, ⟨0, 0⟩) : Outcome (DtbResult × Pools)) ≠
      .ok (.ok tree, pools) := by
    intro he
    exact absurd (Outcome.ok.inj he) (by simp)
  unfold dtbParse at h
  split at h
  · exact absurd h (hno _)
  split at h
  · exact absurd h (hno _)
  obtain ⟨magic, -, h⟩ := Outcome.bind_eq_ok.mp h
  split at h
  · exact absurd h (hno _)
  obtain ⟨totalsize, -, h⟩ := Outcome.bind_eq_ok.mp h
  obtain ⟨offStruct, -, h⟩ := Outcome.bind_eq_ok.mp h
  obtain ⟨offStrings, -, h⟩ := Outcome.bind_eq_ok.mp h
  obtain ⟨bootCpuid, -, h⟩ := Outcome.bind_eq_ok.mp h
  obtain ⟨sizeStrings, -, h⟩ := Outcome.bind_eq_ok.mp h
  obtain ⟨sizeStruct, -, h⟩ := Outcome.bind_eq_ok.mp h
  split at h
  · exact absurd h (hno _)
  split at h
  · exact absurd h (hno _)
  split at h
  · exact absurd h (hno _)
  split at h
  · exact absurd h (hno _)
  exact ⟨_, _, h⟩

/-- The memory of a blob: its bytes, at an address, and nothing else. -/
def blobAt (base : ℕ) (bytes : List UInt8) : Readable := fun a =>
  if base ≤ a then bytes[a - base]? else none

end Leg

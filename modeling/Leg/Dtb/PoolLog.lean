import Leg.Dtb.LookAhead
import Leg.Lib.Logged

/-! `dtb_parse` with a log of its calls of `parse_node` and of what it writes to its pools. The
memory may change with what has been logged, as it does where the pools lie in the way of the
reads. Over a memory that does not change this is `dtb_parse`. -/
namespace Leg

/-- What the parser does to its pools. -/
inductive ParseEvent where
  /-- `parse_node` is called, nested to the depth. -/
  | call (depth : ℕ)
  /-- `alloc_node` takes a slot. -/
  | node (slot : ℕ)
  /-- The look-ahead of the node reserves properties from `start` on. -/
  | reserve (slot start count : ℕ)
  /-- `props[node->prop_count++]` is written where `prop_count` is `k`. -/
  | prop (slot k index : ℕ)
  deriving DecidableEq

/-- The memory that the parser reads once this has been logged. -/
abbrev LoggedMemory := List ParseEvent → Readable

section Parse
variable (mem : LoggedMemory) (p : Parser)

/-- `parseProp`, with the write to the pool. -/
def parsePropLog (propCount cur : ℕ) (node : DtbNode) :
    Logged ParseEvent (Option (DtbNode × ℕ)) :=
  if !inStruct p cur 8 then pure none
  else do
    let plen ← Logged.look fun l => Outcome.ofRead (be32Read (mem l) cur)
    let nameoff ← Logged.look fun l => Outcome.ofRead (be32Read (mem l) (u32 (cur + 4)))
    if p.stringSize ≤ nameoff then pure none
    else
      let name := u32 (p.stringBlock + nameoff)
      let data := u32 (cur + 8)
      let off := wsub data p.structBlock
      if propCount ≤ node.props.length then pure none
      else do
        Logged.emit (.prop node.slot node.props.length (node.propSlot + node.props.length))
        let type ← Logged.look fun l => Outcome.ofRead (guessType (mem l) name data plen)
        let node ← Logged.look fun l => Outcome.ofRead (cellProps (mem l) name data plen node)
        pure (some ({ node with props := node.props ++ [⟨name, data, plen, type⟩] },
          structAt p (off + plen)))

mutual

/-- `parseNode`, with its log. -/
def parseNodeLog : ℕ → ℕ → Pools → ℕ → Option DtbNode →
    Logged ParseEvent (Option (DtbNode × ℕ) × Pools)
  | 0, _, _, _, _ => Logged.look fun _ => .outOfSteps
  | fuel + 1, depth, pools, name, parent => do
    Logged.emit (.call depth)
    let stop ← Logged.look fun l => nameEnd (mem l) p (p.structSize + 1) name
    let nameOffset := wsub name p.structBlock
    let nameLen := wsub stop name
    let cur := structAt p (nameOffset + nameLen + 1)
    match allocNode pools with
    | none => pure (none, pools)
    | some (slot, pools) => do
      Logged.emit (.node slot)
      let ac := parent.elim 2 DtbNode.addressCells
      let sc := parent.elim 1 DtbNode.sizeCells
      let propCount ← Logged.look fun l => countProps (mem l) p fuel cur 0 0
      if 0 < propCount then
        match allocProps pools propCount with
        | none => pure (none, pools)
        | some (propSlot, pools) => do
          Logged.emit (.reserve slot propSlot propCount)
          parseLoopLog fuel depth pools propCount cur ⟨name, slot, propSlot, [], 0, ac, sc, []⟩
      else
        parseLoopLog fuel depth pools propCount cur
          ⟨name, slot, pools.propUsed, [], 0, ac, sc, []⟩

/-- `parseLoop`, with its log. -/
def parseLoopLog : ℕ → ℕ → Pools → ℕ → ℕ → DtbNode →
    Logged ParseEvent (Option (DtbNode × ℕ) × Pools)
  | 0, _, _, _, _, _ => Logged.look fun _ => .outOfSteps
  | fuel + 1, depth, pools, propCount, cur, node =>
    if !inStruct p cur 4 then pure (none, pools)
    else do
      let tok ← Logged.look fun l => Outcome.ofRead (be32Read (mem l) cur)
      let cur := u32 (cur + 4)
      if tok = dtbNop then parseLoopLog fuel depth pools propCount cur node
      else if tok = dtbEndNode ∨ tok = dtbEnd then pure (some (node, cur), pools)
      else if tok = dtbPropToken then do
        match ← parsePropLog mem p propCount cur node with
        | none => pure (none, pools)
        | some (node, cur) => parseLoopLog fuel depth pools propCount cur node
      else if tok = dtbBeginNode then do
        match ← parseNodeLog fuel (depth + 1) pools cur (some node) with
        | (none, pools) => pure (none, pools)
        | (some (child, cur), pools) =>
          parseLoopLog fuel depth pools propCount cur
            { node with children := node.children ++ [child] }
      else parseLoopLog fuel depth pools propCount cur node

end

/-- `parseTree`, with its log. -/
def parseTreeLog (fuel bootCpuid : ℕ) : Logged ParseEvent (DtbResult × Pools) := do
  match ← Logged.look fun l => findRoot (mem l) p fuel p.structBlock with
  | none => pure (.err .corrupt, ⟨0, 0⟩)
  | some cur => do
    match ← parseNodeLog mem p fuel 1 ⟨0, 0⟩ cur none with
    | (none, pools) => pure (.err .corrupt, pools)
    | (some (root, _), pools) => do
      let compat ← Logged.look fun l => Outcome.ofRead
        (dtbGetProp (mem l) root (ascii ['c', 'o', 'm', 'p', 'a', 't', 'i', 'b', 'l', 'e']))
      let compatible := compat.elim 0 fun c => if 0 < c.len then c.data else 0
      let memory ← Logged.look fun l => extractMemory (mem l) root root.children []
      pure (.ok ⟨root, memory, bootCpuid, compatible⟩, pools)

end Parse

/-- `dtbParse`, with its log. -/
def dtbParseLog (mem : LoggedMemory) (fuel blob blobLen nodePool propPool : ℕ) :
    Logged ParseEvent (DtbResult × Pools) :=
  let word (a : ℕ) : Logged ParseEvent ℕ :=
    Logged.look fun l => Outcome.ofRead (be32Read (mem l) a)
  if blob = 0 then pure (.err .null, ⟨0, 0⟩)
  else if blobLen < 40 then pure (.err .truncated, ⟨0, 0⟩)
  else do
    let magic ← word blob
    if magic ≠ 0xd00dfeed then pure (.err .magic, ⟨0, 0⟩)
    else do
      let totalsize ← word (u32 (blob + 4))
      let offStruct ← word (u32 (blob + 8))
      let offStrings ← word (u32 (blob + 12))
      let bootCpuid ← word (u32 (blob + 28))
      let sizeStrings ← word (u32 (blob + 32))
      let sizeStruct ← word (u32 (blob + 36))
      if blobLen < totalsize then pure (.err .truncated, ⟨0, 0⟩)
      else if totalsize < u32 (offStruct + sizeStruct) then pure (.err .truncated, ⟨0, 0⟩)
      else if totalsize < u32 (offStrings + sizeStrings) then pure (.err .truncated, ⟨0, 0⟩)
      else if nodePool = 0 ∨ propPool = 0 then pure (.err .nomem, ⟨0, 0⟩)
      else
        parseTreeLog mem ⟨u32 (blob + offStruct), u32 (blob + offStrings), sizeStruct, sizeStrings⟩
          fuel bootCpuid

section Erasure
open Logged
variable {m : Readable} {p : Parser}

theorem ofRead_bind {α β : Type} (x : Option α) (f : α → Option β) :
    Outcome.ofRead (x >>= f) = Outcome.ofRead x >>= fun a => Outcome.ofRead (f a) := by
  cases x <;> rfl

theorem parsePropLog_computes (propCount cur : ℕ) (node : DtbNode) :
    Computes (parsePropLog (fun _ => m) p propCount cur node)
      (Outcome.ofRead (parseProp m p propCount cur node)) := by
  unfold parsePropLog parseProp
  split
  · exact computes_pure _
  · dsimp only
    rw [ofRead_bind]
    refine computes_bind (computes_look _) fun plen => ?_
    rw [ofRead_bind]
    refine computes_bind (computes_look _) fun nameoff => ?_
    split
    · exact computes_pure _
    split
    · exact computes_pure _
    apply computes_emit
    rw [ofRead_bind]
    refine computes_bind (computes_look _) fun type => ?_
    rw [ofRead_bind]
    exact computes_bind (computes_look _) fun node => computes_pure _

/-- Over a memory that stays the same the log changes nothing, by induction on the fuel. -/
theorem parseLog_computes (fuel : ℕ) :
    (∀ depth pools cur parent, Computes (parseNodeLog (fun _ => m) p fuel depth pools cur parent)
      (parseNode m p fuel pools cur parent)) ∧
    ∀ depth pools propCount cur node,
      Computes (parseLoopLog (fun _ => m) p fuel depth pools propCount cur node)
        (parseLoop m p fuel pools propCount cur node) := by
  induction fuel with
  | zero =>
    constructor
    · intro depth pools cur parent
      rw [parseNodeLog, parseNode]
      exact computes_look _
    · intro depth pools propCount cur node
      rw [parseLoopLog, parseLoop]
      exact computes_look _
  | succ fuel ih =>
    obtain ⟨ihNode, ihLoop⟩ := ih
    constructor
    · intro depth pools cur parent
      rw [parseNodeLog, parseNode]
      apply computes_emit
      refine computes_bind (computes_look _) fun stop => ?_
      dsimp only
      cases allocNode pools with
      | none => exact computes_pure _
      | some r =>
        obtain ⟨slot, pools⟩ := r
        apply computes_emit
        refine computes_bind (computes_look _) fun propCount => ?_
        split
        · cases allocProps pools propCount with
          | none => exact computes_pure _
          | some r =>
            exact computes_emit (ihLoop _ _ _ _ _)
        · exact ihLoop _ _ _ _ _
    · intro depth pools propCount cur node
      rw [parseLoopLog, parseLoop]
      split
      · exact computes_pure _
      refine computes_bind (computes_look _) fun tok => ?_
      dsimp only
      split
      · exact ihLoop _ _ _ _ _
      split
      · exact computes_pure _
      split
      · refine computes_bind (parsePropLog_computes _ _ _) fun r => ?_
        cases r with
        | none => exact computes_pure _
        | some r => exact ihLoop _ _ _ _ _
      split
      · refine computes_bind (ihNode _ _ _ _) fun r => ?_
        obtain ⟨_ | ⟨child, cur⟩, pools⟩ := r
        · exact computes_pure _
        · exact ihLoop _ _ _ _ _
      · exact ihLoop _ _ _ _ _

theorem parseTreeLog_computes (fuel bootCpuid : ℕ) :
    Computes (parseTreeLog (fun _ => m) p fuel bootCpuid) (parseTree m p fuel bootCpuid) := by
  unfold parseTreeLog parseTree
  refine computes_bind (computes_look _) fun root => ?_
  cases root with
  | none => exact computes_pure _
  | some cur =>
    refine computes_bind ((parseLog_computes fuel).1 _ _ _ _) fun r => ?_
    obtain ⟨_ | ⟨root, stop⟩, pools⟩ := r
    · exact computes_pure _
    · refine computes_bind (computes_look _) fun compat => ?_
      exact computes_bind (computes_look _) fun memory => computes_pure _

/-- The log does not change what `dtb_parse` does. -/
theorem dtbParseLog_computes (fuel blob blobLen nodePool propPool : ℕ) :
    Computes (dtbParseLog (fun _ => m) fuel blob blobLen nodePool propPool)
      (dtbParse m fuel blob blobLen nodePool propPool) := by
  unfold dtbParseLog dtbParse
  dsimp only
  split
  · exact computes_pure _
  split
  · exact computes_pure _
  refine computes_bind (computes_look _) fun magic => ?_
  split
  · exact computes_pure _
  refine computes_bind (computes_look _) fun totalsize => ?_
  refine computes_bind (computes_look _) fun offStruct => ?_
  refine computes_bind (computes_look _) fun offStrings => ?_
  refine computes_bind (computes_look _) fun bootCpuid => ?_
  refine computes_bind (computes_look _) fun sizeStrings => ?_
  refine computes_bind (computes_look _) fun sizeStruct => ?_
  split
  · exact computes_pure _
  split
  · exact computes_pure _
  split
  · exact computes_pure _
  split
  · exact computes_pure _
  · exact parseTreeLog_computes _ _

end Erasure

end Leg

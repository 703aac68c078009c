import Leg.Dtb.Blob
import Leg.Dtb.ParseSteps

/-! Whether `dtb_parse` comes to an end. The search for the first node, the look-ahead and the main
loop of `parse_node` each have a bound on their rounds as long as every step goes forward. -/
namespace Leg
open Outcome

theorem lookStep_ends {m : Readable} {p : Parser} {scan : ℕ} (hbase : p.structBlock < 4294967296)
    (hsize : p.structSize < 4294967296) (hscan : scan < 4294967296) (depth : ℕ) :
    Ends True (fun _ => True) (lookStep m p scan depth) := by
  rw [lookStep]
  split
  · trivial
  next hin =>
    rw [Bool.not_eq_true, Bool.not_eq_false'] at hin
    obtain ⟨hlow, hhigh, hfits⟩ := inStruct_bounds hbase hsize hin hscan (by decide) (by decide)
    refine ends_bind (ends_ofRead fun _ _ => trivial) fun tok _ _ => ?_
    dsimp only
    split
    · trivial
    split
    · split <;> trivial
    split
    · have hname := @nameEnd_ends m p hbase hsize (p.structSize + 1) _ (u32_lt (scan + 4))
      rw [u32_of_lt (by omega)] at hname ⊢
      exact ends_bind (hname.mono (fun _ => by omega) fun _ _ => trivial) fun _ _ _ => trivial
    split
    · split
      · trivial
      · exact ends_bind (ends_ofRead fun _ _ => trivial) fun _ _ _ => trivial
    split <;> trivial

/-- A call of `parse_node`, or its main loop, that comes to the end of the node is behind its start
there, and the main loop of the node around goes on. -/
def Closes (m : Readable) (p : Parser) (start : ℕ) (outer : List OpenNode)
    (r : Option (DtbNode × ℕ) × Pools) : Prop :=
  ∀ node cur, r.1 = some (node, cur) → wsub start p.structBlock < wsub cur p.structBlock ∧
    ∀ parent rest, outer = parent :: rest →
      ParseReaches m p (.main r.2 cur (parent.addChild node) rest)

section Loops
variable {m : Readable} {p : Parser}

theorem closes_none {start : ℕ} {outer : List OpenNode} {pools : Pools} :
    Closes m p start outer (none, pools) := by
  intro node cur hno
  cases hno

theorem Closes.before {start start' : ℕ} {outer : List OpenNode}
    {r : Option (DtbNode × ℕ) × Pools} (h : Closes m p start' outer r)
    (hlt : wsub start p.structBlock < wsub start' p.structBlock) : Closes m p start outer r := by
  intro node cur hr
  obtain ⟨hlater, hreach⟩ := h node cur hr
  exact ⟨hlt.trans hlater, hreach⟩

variable (m p) in
/-- That many steps are enough for the calls of `parse_node` that the parse comes to. -/
def NodeEnds (fuel : ℕ) : Prop :=
  ∀ pools name outer, ParseReaches m p (.entry pools name outer) →
    Ends (p.structSize + 4 ≤ fuel + wsub name p.structBlock) (Closes m p name outer)
      (parseNode m p fuel pools name (outer.head?.map OpenNode.node))

variable (m p) in
/-- That many steps are enough for the main loops that the parse comes to. -/
def LoopEnds (fuel : ℕ) : Prop :=
  ∀ pools cur node outer, ParseReaches m p (.main pools cur node outer) →
    Ends (0 < fuel ∧ p.structSize < fuel + wsub cur p.structBlock) (Closes m p cur outer)
      (parseLoop m p fuel pools node.propCount cur node.node)

variable (hbase : p.structBlock < 4294967296) (hsize : p.structSize < 4294967296)
variable (hsound : ∀ s s', ParseReaches m p s → ParseStep m p s s' → s.Sound m p)
include hbase hsize hsound

theorem ParseReaches.forward {s s' : ParseAt} (hs : ParseReaches m p s)
    (h : ParseStep m p s s') :
    ParseReaches m p s' ∧ wsub s.place p.structBlock < wsub s'.place p.structBlock := by
  have hlt := (h.forward_iff hbase hsize (hs.placed hbase)).mpr (hsound _ _ hs h)
  exact ⟨hs.tail h, hlt⟩

/-- The look-ahead comes to an end, by induction on its rounds. -/
theorem countProps_ends (fuel : ℕ) : ∀ {scan depth count : ℕ},
    ParseReaches m p (.look scan depth) →
    Ends (0 < fuel ∧ p.structSize < fuel + wsub scan p.structBlock) (fun _ => True)
      (countProps m p fuel scan depth count) := by
  induction fuel with
  | zero =>
    intro scan depth count _ h
    exact Nat.lt_irrefl _ h.1
  | succ fuel ih =>
    intro scan depth count hscan
    have hword : WordPlace p scan := hscan.placed hbase
    rw [countProps_succ]
    have hstep := @lookStep_ends m p scan hbase hsize hword.lt depth
    cases hround : lookStep m p scan depth with
    | fault => trivial
    | divByZero => trivial
    | outOfSteps => exact absurd hround (hstep.ne trivial)
    | ok step =>
      cases step with
      | stop => trivial
      | move next depth' counted =>
        obtain ⟨hnext, hlt⟩ := hscan.forward hbase hsize hsound (.round hround)
        have hroom := (word_advances hbase hsize hword (lookStep_cases hround).1).2
        dsimp only [ParseAt.place] at hlt
        exact (ih hnext).mono (by omega) fun _ h => h

/-- A call goes over the name, through the look-ahead and into the main loop. -/
theorem LoopEnds.node {fuel : ℕ} (hloop : LoopEnds m p fuel) : NodeEnds m p (fuel + 1) := by
  intro pools name outer hreach
  have hname : NamePlace p name := hreach.placed hbase
  have hroom : wsub name p.structBlock ≤ p.structSize := by
    obtain ⟨scan, hscan, hin, rfl⟩ := hname
    obtain ⟨hword, hroom⟩ := word_advances hbase hsize hscan hin
    omega
  rw [parseNode]
  refine ends_bind ((nameEnd_ends hbase hsize _ hname.lt).mono (fun _ => ?_) fun _ h => h)
    fun stop hstop _ => ?_
  · have hlow := hname.le hbase hsize
    omega
  dsimp only
  cases hnode : allocNode pools with
  | none => exact closes_none
  | some r =>
    obtain ⟨slot, pools'⟩ := r
    obtain ⟨hscan, hlt⟩ := hreach.forward hbase hsize hsound (.scan hstop hnode)
    dsimp only [ParseAt.place] at hlt
    dsimp only
    refine ends_bind ((countProps_ends hbase hsize hsound fuel hscan).mono (by omega)
      fun _ h => h) fun propCount hcount _ => ?_
    cases hprops : reserveProps pools' propCount with
    | none =>
      rw [reserveProps] at hprops
      rw [hprops]
      exact closes_none
    | some r =>
      obtain ⟨propSlot, pools''⟩ := r
      have hmain := hreach.tail (.tokens hstop hnode hcount hprops)
      rw [reserveProps] at hprops
      rw [hprops]
      exact (hloop _ _ _ _ hmain).mono (by omega) fun r hr => hr.before hlt

theorem LoopEnds.step {fuel cur next : ℕ} {pools : Pools} {node node' : OpenNode}
    {outer : List OpenNode} (hloop : LoopEnds m p fuel)
    (hreach : ParseReaches m p (.main pools cur node outer)) (hin : inStruct p cur 4 = true)
    (hstep : ParseStep m p (.main pools cur node outer) (.main pools next node' outer)) :
    Ends (0 < fuel + 1 ∧ p.structSize < fuel + 1 + wsub cur p.structBlock) (Closes m p cur outer)
      (parseLoop m p fuel pools node'.propCount next node'.node) := by
  obtain ⟨hnext, hlt⟩ := hreach.forward hbase hsize hsound hstep
  have hroom := (word_advances hbase hsize (hreach.placed hbase) hin).2
  dsimp only [ParseAt.place] at hlt hroom
  exact (hloop _ _ _ _ hnext).mono (by omega) fun r hr => hr.before hlt

omit hsound in
theorem LoopEnds.child {fuel cur : ℕ} {pools : Pools} {node : OpenNode} {outer : List OpenNode}
    (hloop : LoopEnds m p fuel) (hnode : NodeEnds m p fuel)
    (hreach : ParseReaches m p (.main pools cur node outer)) (hin : inStruct p cur 4 = true)
    (htok : be32Read m cur = some dtbBeginNode) :
    Ends (0 < fuel + 1 ∧ p.structSize < fuel + 1 + wsub cur p.structBlock) (Closes m p cur outer)
      (parseNode m p fuel pools (u32 (cur + 4)) (some node.node) >>= fun r =>
        match r with
        | (none, pools) => return (none, pools)
        | (some (child, cur), pools) => parseLoop m p fuel pools node.propCount cur
          { node.node with children := node.node.children ++ [child] }) := by
  obtain ⟨hword, hroom⟩ := word_advances hbase hsize (hreach.placed hbase) hin
  dsimp only [ParseAt.place] at hword hroom
  refine ends_bind ((hnode _ _ _ (hreach.tail (.child hin htok))).mono (by omega) fun _ h => h)
    fun r _ hr => ?_
  obtain ⟨_ | ⟨child, next⟩, pools'⟩ := r
  · exact closes_none
  · obtain ⟨hlt, hback⟩ := hr child next rfl
    refine (hloop _ _ _ _ (hback node outer rfl)).mono (by omega) fun r hr => hr.before ?_
    omega

/-- A round of the main loop, token by token. -/
theorem LoopEnds.succ {fuel : ℕ} (hloop : LoopEnds m p fuel) (hnode : NodeEnds m p fuel) :
    LoopEnds m p (fuel + 1) := by
  intro pools cur node outer hreach
  rw [parseLoop]
  split
  · exact closes_none
  next hin =>
    rw [Bool.not_eq_true, Bool.not_eq_false'] at hin
    refine ends_bind (ends_ofRead fun tok htok => htok) fun tok _ htok => ?_
    dsimp only
    split
    next hnop =>
      exact hloop.step hbase hsize hsound hreach hin (.word hin htok (by rw [hnop]; decide))
    split
    next hend =>
      intro node' cur' hclose
      cases hclose
      have hword := (word_advances hbase hsize (hreach.placed hbase) hin).1
      refine ⟨by dsimp only [ParseAt.place] at hword; omega, fun parent rest hout => ?_⟩
      subst hout
      exact hreach.tail (.close hin htok hend)
    next hnop hend =>
      split
      next hprop =>
        subst hprop
        refine ends_bind (ends_ofRead fun r hr => hr) fun r _ hr => ?_
        obtain _ | ⟨node', next⟩ := r
        · exact closes_none
        · exact hloop.step hbase hsize hsound hreach hin (.prop hin htok hr)
      next hprop =>
        split
        next hbegin =>
          subst hbegin
          exact hloop.child hbase hsize hnode hreach hin htok
        next hbegin =>
          refine hloop.step hbase hsize hsound hreach hin (.word hin htok ?_)
          simp only [List.mem_cons, List.not_mem_nil, or_false, not_or]
          exact ⟨fun h => hend (.inl h), fun h => hend (.inr h), hprop, hbegin⟩

theorem parse_ends (fuel : ℕ) : NodeEnds m p fuel ∧ LoopEnds m p fuel := by
  induction fuel with
  | zero =>
    constructor
    · intro pools name outer hreach h
      obtain ⟨scan, hscan, hin, rfl⟩ := hreach.placed hbase
      obtain ⟨hword, hroom⟩ := word_advances hbase hsize hscan hin
      omega
    · intro pools cur node outer _ h
      exact Nat.lt_irrefl _ h.1
  | succ fuel ih =>
    obtain ⟨ihNode, ihLoop⟩ := ih
    exact ⟨ihLoop.node hbase hsize hsound, ihLoop.succ hbase hsize hsound ihNode⟩

end Loops

section Whole
variable {m : Readable} {p : Parser}

/-- The search for the first node ends, at a BEGIN_NODE token. -/
theorem findRoot_ends (hbase : p.structBlock < 4294967296) (hsize : p.structSize < 4294967296)
    (fuel : ℕ) : ∀ {cur : ℕ}, ParseReaches m p (.search cur) →
    Ends (0 < fuel ∧ p.structSize < fuel + wsub cur p.structBlock)
      (fun r => ∀ name, r = some name → ParseReaches m p (.entry ⟨0, 0⟩ name []))
      (findRoot m p fuel cur) := by
  induction fuel with
  | zero =>
    intro cur _ h
    exact Nat.lt_irrefl _ h.1
  | succ fuel ih =>
    intro cur hcur
    rw [findRoot]
    split
    · intro name hno
      cases hno
    next hin =>
      rw [Bool.not_eq_true, Bool.not_eq_false'] at hin
      obtain ⟨hword, hroom⟩ := word_advances hbase hsize (hcur.placed hbase) hin
      dsimp only [ParseAt.place] at hword hroom
      refine ends_bind (ends_ofRead fun tok htok => htok) fun tok _ htok => ?_
      split
      next hnop =>
        subst hnop
        exact (ih (hcur.tail (.searchNop hin htok))).mono (by omega) fun _ h => h
      split
      next hbegin =>
        subst hbegin
        intro name hname
        cases hname
        exact hcur.tail (.root hin htok)
      · intro name hno
        cases hno

theorem extractMemory_ends (m : Readable) (root : DtbNode) : ∀ ns memory,
    Ends True (fun _ => True) (extractMemory m root ns memory)
  | [], _ => trivial
  | n :: ns, memory => by
    rw [extractMemory]
    refine ends_bind (ends_ofRead fun _ _ => trivial) fun reg _ _ => ?_
    cases reg with
    | none => exact extractMemory_ends m root ns memory
    | some reg =>
      dsimp only
      split
      · trivial
      · exact ends_bind (ends_ofRead fun _ _ => trivial) fun memory _ _ =>
          extractMemory_ends m root ns memory

theorem parseTree_ends (hbase : p.structBlock < 4294967296) (hsize : p.structSize < 4294967296)
    (hsound : ∀ s s', ParseReaches m p s → ParseStep m p s s' → s.Sound m p)
    (fuel bootCpuid : ℕ) :
    Ends (p.structSize + 4 ≤ fuel) (fun _ => True) (parseTree m p fuel bootCpuid) := by
  rw [parseTree]
  refine ends_bind ((findRoot_ends hbase hsize fuel .refl).mono (by omega) fun _ h => h)
    fun r _ hr => ?_
  cases r with
  | none => trivial
  | some name =>
    have hnode := (parse_ends hbase hsize hsound fuel).1 ⟨0, 0⟩ name [] (hr name rfl)
    refine ends_bind (hnode.mono (by omega) fun _ _ => trivial) fun r _ _ => ?_
    obtain ⟨_ | ⟨root, cur⟩, pools⟩ := r
    · trivial
    · refine ends_bind (ends_ofRead fun _ _ => trivial) fun compat _ _ => ?_
      exact ends_bind ((extractMemory_ends m root _ _).mono (fun _ => trivial) fun _ h => h)
        fun _ _ _ => trivial

end Whole

/-- The parser that `dtb_parse` sets up, where it accepts the header. -/
def headerParser (m : Readable) (blob blobLen nodePool propPool : ℕ) : Option Parser := do
  let magic ← be32Read m blob
  let totalsize ← be32Read m (u32 (blob + 4))
  let offStruct ← be32Read m (u32 (blob + 8))
  let offStrings ← be32Read m (u32 (blob + 12))
  let _ ← be32Read m (u32 (blob + 28))
  let sizeStrings ← be32Read m (u32 (blob + 32))
  let sizeStruct ← be32Read m (u32 (blob + 36))
  if blob = 0 ∨ blobLen < 40 ∨ magic ≠ 0xd00dfeed ∨ blobLen < totalsize ∨
      totalsize < u32 (offStruct + sizeStruct) ∨ totalsize < u32 (offStrings + sizeStrings) ∨
      nodePool = 0 ∨ propPool = 0 then none
  else some ⟨u32 (blob + offStruct), u32 (blob + offStrings), sizeStruct, sizeStrings⟩

section Header
variable {m : Readable} {blob blobLen nodePool propPool : ℕ}

theorem headerParser_bounds {p : Parser}
    (h : headerParser m blob blobLen nodePool propPool = some p) :
    p.structBlock < 4294967296 ∧ p.structSize < 4294967296 := by
  unfold headerParser at h
  obtain ⟨magic, -, h⟩ := Option.bind_eq_some_iff.mp h
  obtain ⟨totalsize, -, h⟩ := Option.bind_eq_some_iff.mp h
  obtain ⟨offStruct, -, h⟩ := Option.bind_eq_some_iff.mp h
  obtain ⟨offStrings, -, h⟩ := Option.bind_eq_some_iff.mp h
  obtain ⟨bootCpuid, -, h⟩ := Option.bind_eq_some_iff.mp h
  obtain ⟨sizeStrings, -, h⟩ := Option.bind_eq_some_iff.mp h
  obtain ⟨sizeStruct, hsize, h⟩ := Option.bind_eq_some_iff.mp h
  split at h
  · cases h
  · cases h
    exact ⟨u32_lt _, be32Read_lt hsize⟩

/-- The result is either that of the parse from the first node on, or the header's and so the same
for every number of steps. -/
theorem dtbParse_header (m : Readable) (blob blobLen nodePool propPool : ℕ) :
    (∃ p bootCpuid, headerParser m blob blobLen nodePool propPool = some p ∧
      ∀ fuel, dtbParse m fuel blob blobLen nodePool propPool = parseTree m p fuel bootCpuid) ∨
    headerParser m blob blobLen nodePool propPool = none ∧
      ∀ fuel, dtbParse m fuel blob blobLen nodePool propPool ≠ .outOfSteps := by
  cases hp : headerParser m blob blobLen nodePool propPool with
  | some p =>
    unfold headerParser at hp
    obtain ⟨magic, hmagic, hp⟩ := Option.bind_eq_some_iff.mp hp
    obtain ⟨totalsize, htotal, hp⟩ := Option.bind_eq_some_iff.mp hp
    obtain ⟨offStruct, hstruct, hp⟩ := Option.bind_eq_some_iff.mp hp
    obtain ⟨offStrings, hstrings, hp⟩ := Option.bind_eq_some_iff.mp hp
    obtain ⟨bootCpuid, hcpu, hp⟩ := Option.bind_eq_some_iff.mp hp
    obtain ⟨sizeStrings, hstringSize, hp⟩ := Option.bind_eq_some_iff.mp hp
    obtain ⟨sizeStruct, hstructSize, hp⟩ := Option.bind_eq_some_iff.mp hp
    split at hp
    · cases hp
    next haccept =>
      simp only [not_or, not_not] at haccept
      obtain ⟨hblob, hlen, heq, hsmall, hblock, hnames, hnodes, hprops⟩ := haccept
      obtain rfl := Option.some.inj hp
      refine .inl ⟨_, bootCpuid, rfl, fun fuel => ?_⟩
      rw [dtbParse, if_neg hblob, if_neg hlen, hmagic, ofRead_some, ok_bind,
        if_neg (not_not.mpr heq)]
      simp only [htotal, hstruct, hstrings, hcpu, hstringSize, hstructSize, ofRead_some, ok_bind]
      rw [if_neg hsmall, if_neg hblock, if_neg hnames, if_neg (not_or.mpr ⟨hnodes, hprops⟩)]
  | none =>
    refine .inr ⟨rfl, fun fuel => @Ends.ne _ True (fun _ => True) _ ?_ trivial⟩
    unfold dtbParse
    split
    · trivial
    split
    · trivial
    next hblob hlen =>
      refine ends_bind (ends_ofRead fun _ h => h) fun magic _ hmagic => ?_
      split
      · trivial
      next heq =>
        refine ends_bind (ends_ofRead fun _ h => h) fun totalsize _ htotal => ?_
        refine ends_bind (ends_ofRead fun _ h => h) fun offStruct _ hstruct => ?_
        refine ends_bind (ends_ofRead fun _ h => h) fun offStrings _ hstrings => ?_
        refine ends_bind (ends_ofRead fun _ h => h) fun bootCpuid _ hcpu => ?_
        refine ends_bind (ends_ofRead fun _ h => h) fun sizeStrings _ hstringSize => ?_
        refine ends_bind (ends_ofRead fun _ h => h) fun sizeStruct _ hstructSize => ?_
        split
        · trivial
        split
        · trivial
        split
        · trivial
        split
        · trivial
        next hsmall hblock hnames hpools =>
          -- all the tests of the header have been passed
          rw [headerParser, hmagic, htotal, hstruct, hstrings, hcpu, hstringSize, hstructSize] at hp
          simp only [Option.bind_eq_bind, Option.bind_some] at hp
          rw [if_neg (by simp only [not_or] at hpools ⊢; exact ⟨hblob, hlen, heq, hsmall, hblock,
            hnames, hpools⟩)] at hp
          cases hp

end Header

/-- `dtb_parse` comes to an end on a blob, and every step that it takes goes forward, if and only if
nothing that it passes ends in front of itself. -/
theorem dtb_parse_ends_iff (m : Readable) (blob blobLen nodePool propPool : ℕ) :
    ((∀ p, headerParser m blob blobLen nodePool propPool = some p →
        ∀ s s', ParseReaches m p s → ParseStep m p s s' →
          wsub s.place p.structBlock < wsub s'.place p.structBlock) ∧
      ∃ steps, ∀ fuel ≥ steps, dtbParse m fuel blob blobLen nodePool propPool ≠ .outOfSteps) ↔
      ∀ p, headerParser m blob blobLen nodePool propPool = some p →
        ∀ s s', ParseReaches m p s → ParseStep m p s s' → s.Sound m p := by
  constructor
  · rintro ⟨hforward, -⟩ p hp s s' hs hstep
    obtain ⟨hbase, hsize⟩ := headerParser_bounds hp
    exact (hstep.forward_iff hbase hsize (hs.placed hbase)).mp (hforward p hp s s' hs hstep)
  · intro hsound
    constructor
    · intro p hp s s' hs hstep
      obtain ⟨hbase, hsize⟩ := headerParser_bounds hp
      exact (hs.forward hbase hsize (hsound p hp) hstep).2
    · rcases dtbParse_header m blob blobLen nodePool propPool with
        ⟨p, bootCpuid, hp, hparse⟩ | ⟨-, hends⟩
      · obtain ⟨hbase, hsize⟩ := headerParser_bounds hp
        refine ⟨p.structSize + 4, fun fuel hfuel => ?_⟩
        rw [hparse]
        exact (parseTree_ends hbase hsize (hsound p hp) fuel bootCpuid).ne hfuel
      · exact ⟨0, fun fuel _ => hends fuel⟩

/-- A blob whose only property is so long that its end wraps to the property itself. -/
def wrappingBlob : Readable := blobAt 0x48000000
  (be32 0xd00dfeed ++ be32 68 ++ be32 40 ++ be32 68 ++ be32 40 ++ be32 17 ++ be32 16 ++ be32 0 ++
    be32 0 ++ be32 28 ++ (be32 dtbBeginNode ++ [0, 0, 0, 0] ++ be32 dtbPropToken ++
    be32 0xFFFFFFF1 ++ be32 0 ++ be32 dtbEndNode ++ be32 dtbEnd))

def wrappingParser : Parser := ⟨0x48000028, 0x48000044, 28, 0⟩

theorem wrappingBlob_header :
    headerParser wrappingBlob 0x48000000 68 0x40100000 0x40110000 = some wrappingParser := by
  have hmagic : be32Read wrappingBlob 0x48000000 = some 0xd00dfeed := by decide
  have htotal : be32Read wrappingBlob (u32 (0x48000000 + 4)) = some 68 := by decide
  have hstruct : be32Read wrappingBlob (u32 (0x48000000 + 8)) = some 40 := by decide
  have hstrings : be32Read wrappingBlob (u32 (0x48000000 + 12)) = some 68 := by decide
  have hcpu : be32Read wrappingBlob (u32 (0x48000000 + 28)) = some 0 := by decide
  have hstringSize : be32Read wrappingBlob (u32 (0x48000000 + 32)) = some 0 := by decide
  have hstructSize : be32Read wrappingBlob (u32 (0x48000000 + 36)) = some 28 := by decide
  rw [headerParser, hmagic, htotal, hstruct, hstrings, hcpu, hstringSize, hstructSize]
  rfl

theorem countProps_wraps (fuel : ℕ) : ∀ count,
    countProps wrappingBlob wrappingParser fuel 0x48000030 0 count = .outOfSteps := by
  induction fuel with
  | zero =>
    intro count
    rfl
  | succ fuel ih =>
    intro count
    have hstep : lookStep wrappingBlob wrappingParser 0x48000030 0 =
        .ok (.move 0x48000030 0 true) := by
      have htok : be32Read wrappingBlob 0x48000030 = some dtbPropToken := by decide
      have hplen : be32Read wrappingBlob (u32 (0x48000030 + 4)) = some 0xFFFFFFF1 := by decide
      rw [lookStep, if_neg (by decide), htok, ofRead_some, ok_bind]
      dsimp only
      rw [if_neg (by decide), if_neg (by decide), if_neg (by decide), if_pos rfl,
        if_neg (by decide), hplen]
      rfl
    rw [countProps_succ, hstep]
    exact ih _

/-- `dtb_parse` never ends on that blob. -/
theorem dtb_parse_loops : ¬∃ steps, ∀ fuel ≥ steps,
    dtbParse wrappingBlob fuel 0x48000000 68 0x40100000 0x40110000 ≠ .outOfSteps := by
  rintro ⟨steps, hends⟩
  refine hends (steps + 1) (Nat.le_succ _) ?_
  rcases dtbParse_header wrappingBlob 0x48000000 68 0x40100000 0x40110000 with
    ⟨p, bootCpuid, hp, hparse⟩ | ⟨hnone, -⟩
  · obtain rfl := Option.some.inj (wrappingBlob_header.symm.trans hp)
    have htok : be32Read wrappingBlob 0x48000028 = some dtbBeginNode := by decide
    have hname : nameEnd wrappingBlob wrappingParser (wrappingParser.structSize + 1) 0x4800002C =
        .ok 0x4800002C := by decide
    have hroot : findRoot wrappingBlob wrappingParser (steps + 1) wrappingParser.structBlock =
        .ok (some 0x4800002C) := by
      rw [findRoot, if_neg (by decide), show wrappingParser.structBlock = 0x48000028 from rfl, htok]
      rfl
    rw [hparse, parseTree, hroot, ok_bind]
    dsimp only
    rw [parseNode, hname, ok_bind]
    dsimp only
    rw [show structAt wrappingParser (wsub 0x4800002C wrappingParser.structBlock +
      wsub 0x4800002C 0x4800002C + 1) = 0x48000030 by decide]
    simp only [allocNode, countProps_wraps]
    rfl
  · rw [wrappingBlob_header] at hnone
    cases hnone

end Leg

import Mathlib.Data.List.Nodup
import Leg.Dtb.PoolLog

/-! The pools of `dtb_parse` are never overrun: what every run of the parser logs, whatever it
reads. -/
namespace Leg
open Logged

/-- Properties that the look-ahead of a node has reserved. -/
structure Slice where
  slot : ℕ
  start : ℕ
  count : ℕ

/-- The node slots that have been taken. -/
def nodeSlots (l : List ParseEvent) : List ℕ := l.filterMap fun
  | .node slot => some slot
  | _ => none

/-- The slices that have been reserved. -/
def reservations (l : List ParseEvent) : List Slice := l.filterMap fun
  | .reserve slot start count => some ⟨slot, start, count⟩
  | _ => none

/-- The properties that have been written: their node, and its `prop_count` before. -/
def propWrites (l : List ParseEvent) : List (ℕ × ℕ) := l.filterMap fun
  | .prop slot k _ => some (slot, k)
  | _ => none

/-- The places in the pool of the properties that have been written. -/
def propIndices (l : List ParseEvent) : List ℕ := l.filterMap fun
  | .prop _ _ index => some index
  | _ => none

/-- The pools have been kept: no slot outside them or twice, slices of distinct nodes that do not
overlap, no property beyond the slice of its node, and no call nested too deep. -/
structure PoolsKept (l : List ParseEvent) : Prop where
  nodes : (nodeSlots l).Nodup ∧ ∀ slot ∈ nodeSlots l, slot < dtbMaxNodes
  nodeCount : (nodeSlots l).length ≤ dtbMaxNodes
  props : (propIndices l).Nodup ∧ ∀ index ∈ propIndices l, index < dtbMaxProps
  propCount : (propIndices l).length ≤ dtbMaxProps
  apart : (reservations l).Pairwise fun r s => r.slot ≠ s.slot ∧
    (r.start + r.count ≤ s.start ∨ s.start + s.count ≤ r.start)
  inPool : ∀ r ∈ reservations l, r.start + r.count ≤ dtbMaxProps
  reserved : ∀ slot k index, .prop slot k index ∈ l →
    ∃ r ∈ reservations l, r.slot = slot ∧ k < r.count ∧ index = r.start + k
  depth : ∀ d, .call d ∈ l → d ≤ dtbMaxNodes + 1

/-- The log agrees with what is used of the pools. -/
structure PoolInv (pools : Pools) (l : List ParseEvent) : Prop where
  slots : nodeSlots l = List.range pools.nodeUsed
  nodes : pools.nodeUsed ≤ dtbMaxNodes
  props : pools.propUsed ≤ dtbMaxProps
  apart : (reservations l).Pairwise fun r s => r.slot < s.slot ∧ r.start + r.count ≤ s.start
  below : ∀ r ∈ reservations l, r.slot < pools.nodeUsed ∧ r.start + r.count ≤ pools.propUsed
  writes : ∀ slot k index, .prop slot k index ∈ l →
    ∃ r ∈ reservations l, r.slot = slot ∧ k < r.count ∧ index = r.start + k
  fresh : (propWrites l).Nodup
  depth : ∀ d, .call d ∈ l → d ≤ dtbMaxNodes + 1

section Events
variable {pools : Pools} {l : List ParseEvent} {slot k index : ℕ}

theorem mem_propWrites : (slot, k) ∈ propWrites l ↔ ∃ index, .prop slot k index ∈ l := by
  unfold propWrites
  rw [List.mem_filterMap]
  constructor
  · rintro ⟨e, he, h⟩
    cases e with
    | prop slot' k' index =>
      cases h
      exact ⟨index, he⟩
    | _ => exact nomatch h
  · rintro ⟨index, h⟩
    exact ⟨_, h, rfl⟩

theorem mem_reservations {r : Slice} :
    r ∈ reservations l ↔ .reserve r.slot r.start r.count ∈ l := by
  unfold reservations
  rw [List.mem_filterMap]
  constructor
  · rintro ⟨e, he, h⟩
    cases e with
    | reserve slot start count =>
      cases h
      exact he
    | _ => exact nomatch h
  · intro h
    exact ⟨_, h, rfl⟩

theorem poolInv_nil : PoolInv ⟨0, 0⟩ [] :=
  ⟨rfl, Nat.zero_le _, Nat.zero_le _, .nil, fun _ h => absurd h List.not_mem_nil,
    fun _ _ _ h => absurd h List.not_mem_nil, .nil, fun _ h => absurd h List.not_mem_nil⟩

theorem PoolInv.call (h : PoolInv pools l) {depth : ℕ} (hdepth : depth ≤ dtbMaxNodes + 1) :
    PoolInv pools (l ++ [.call depth]) := by
  obtain ⟨hslots, hnodes, hprops, hslices, hbelow, hwrites, hfresh, hdepths⟩ := h
  have hsame : reservations (l ++ [.call depth]) = reservations l := by simp [reservations]
  refine ⟨?_, hnodes, hprops, hsame ▸ hslices, hsame ▸ hbelow, fun slot k index hmem => ?_, ?_,
    fun d hmem => ?_⟩
  · rw [← hslots]
    simp [nodeSlots]
  · rw [hsame]
    exact hwrites slot k index (by simpa using hmem)
  · simpa [propWrites] using hfresh
  · rcases List.mem_append.mp hmem with hmem | hmem
    · exact hdepths d hmem
    · obtain rfl := ParseEvent.call.inj (List.mem_singleton.mp hmem)
      exact hdepth

theorem PoolInv.node (h : PoolInv pools l) (hroom : pools.nodeUsed < dtbMaxNodes) :
    PoolInv ⟨pools.nodeUsed + 1, pools.propUsed⟩ (l ++ [.node pools.nodeUsed]) := by
  obtain ⟨hslots, hnodes, hprops, hslices, hbelow, hwrites, hfresh, hdepths⟩ := h
  have hsame : reservations (l ++ [.node pools.nodeUsed]) = reservations l := by simp [reservations]
  refine ⟨?_, hroom, hprops, hsame ▸ hslices, fun r hr => ?_, fun slot k index hmem => ?_, ?_,
    fun d hmem => hdepths d (by simpa using hmem)⟩
  · rw [List.range_succ, ← hslots]
    simp [nodeSlots]
  · rw [hsame] at hr
    exact ⟨(hbelow r hr).1.trans (Nat.lt_succ_self _), (hbelow r hr).2⟩
  · rw [hsame]
    exact hwrites slot k index (by simpa using hmem)
  · simpa [propWrites] using hfresh

/-- `alloc_props` reserves the next slice, for a node that has none. -/
theorem PoolInv.reserve (h : PoolInv pools l) {count : ℕ} (hslot : slot < pools.nodeUsed)
    (hnew : ∀ r ∈ reservations l, r.slot < slot) (hroom : pools.propUsed + count ≤ dtbMaxProps) :
    PoolInv ⟨pools.nodeUsed, pools.propUsed + count⟩
      (l ++ [.reserve slot pools.propUsed count]) := by
  obtain ⟨hslots, hnodes, hprops, hslices, hbelow, hwrites, hfresh, hdepths⟩ := h
  have hmore : reservations (l ++ [.reserve slot pools.propUsed count]) =
      reservations l ++ [⟨slot, pools.propUsed, count⟩] := by simp [reservations]
  refine ⟨?_, hnodes, hroom, ?_, fun r hr => ?_, fun slot k index hmem => ?_, ?_,
    fun d hmem => hdepths d (by simpa using hmem)⟩
  · rw [← hslots]
    simp [nodeSlots]
  · rw [hmore, List.pairwise_append]
    refine ⟨hslices, List.pairwise_singleton _ _, fun r hr s hs => ?_⟩
    obtain rfl := List.mem_singleton.mp hs
    exact ⟨hnew r hr, (hbelow r hr).2⟩
  · rw [hmore, List.mem_append, List.mem_singleton] at hr
    rcases hr with hr | rfl
    · exact ⟨(hbelow r hr).1, (hbelow r hr).2.trans (Nat.le_add_right _ _)⟩
    · exact ⟨hslot, le_refl _⟩
  · obtain ⟨r, hr, hrest⟩ := hwrites slot k index (by simpa using hmem)
    rw [hmore]
    exact ⟨r, List.mem_append_left _ hr, hrest⟩
  · simpa [propWrites] using hfresh

/-- A property is written into the slice of its node, once. -/
theorem PoolInv.prop (h : PoolInv pools l) {r : Slice} (hr : r ∈ reservations l)
    (hk : k < r.count) (hnew : (r.slot, k) ∉ propWrites l) :
    PoolInv pools (l ++ [.prop r.slot k (r.start + k)]) := by
  obtain ⟨hslots, hnodes, hprops, hslices, hbelow, hwrites, hfresh, hdepths⟩ := h
  have hsame : reservations (l ++ [.prop r.slot k (r.start + k)]) = reservations l := by
    simp [reservations]
  have hmore : propWrites (l ++ [.prop r.slot k (r.start + k)]) =
      propWrites l ++ [(r.slot, k)] := by simp [propWrites]
  refine ⟨?_, hnodes, hprops, hsame ▸ hslices, hsame ▸ hbelow, fun slot j index hmem => ?_, ?_,
    fun d hmem => hdepths d (by simpa using hmem)⟩
  · rw [← hslots]
    simp [nodeSlots]
  · rw [hsame]
    rcases List.mem_append.mp hmem with hmem | hmem
    · exact hwrites slot j index hmem
    · cases List.mem_singleton.mp hmem
      exact ⟨r, hr, rfl, hk, rfl⟩
  · rw [hmore, List.nodup_append]
    refine ⟨hfresh, List.nodup_singleton _, fun a ha b hb heq => ?_⟩
    obtain rfl := List.mem_singleton.mp hb
    exact hnew (heq ▸ ha)

theorem PoolInv.eq_or_apart (h : PoolInv pools l) : ∀ r ∈ reservations l, ∀ s ∈ reservations l,
    r = s ∨ (r.slot ≠ s.slot ∧ (r.start + r.count ≤ s.start ∨ s.start + s.count ≤ r.start)) := by
  apply List.Pairwise.forall_of_forall_of_flip
  · exact fun _ _ => .inl rfl
  · exact h.apart.imp fun hrs => .inr ⟨hrs.1.ne, .inl hrs.2⟩
  · exact h.apart.imp fun hrs => .inr ⟨hrs.1.ne', .inr hrs.2⟩

theorem PoolInv.indices_nodup (h : PoolInv pools l) : (propIndices l).Nodup := by
  have hfresh := h.fresh
  unfold propWrites at hfresh
  unfold propIndices
  rw [List.Nodup, List.pairwise_filterMap] at hfresh ⊢
  refine hfresh.imp_of_mem fun {a b} ha hb hne i hi j hj heq => ?_
  cases a with
  | prop slot k index =>
    cases b with
    | prop slot' k' index' =>
      obtain rfl := Option.some.inj hi
      obtain rfl := Option.some.inj hj
      obtain ⟨r, hr, hslot, hk, hindex⟩ := h.writes slot k index ha
      obtain ⟨r', hr', hslot', hk', hindex'⟩ := h.writes slot' k' index' hb
      rcases h.eq_or_apart r hr r' hr' with rfl | ⟨-, hdisj⟩
      · obtain rfl : k = k' := by omega
        exact hne _ rfl _ rfl (by rw [← hslot, ← hslot'])
      · omega
    | _ => exact nomatch hj
  | _ => exact nomatch hi

theorem PoolInv.index_lt (h : PoolInv pools l) : ∀ index ∈ propIndices l, index < dtbMaxProps := by
  intro index hmem
  obtain ⟨e, he, hindex⟩ := List.mem_filterMap.mp hmem
  cases e with
  | prop slot k i =>
    obtain rfl := Option.some.inj hindex
    obtain ⟨r, hr, -, hk, rfl⟩ := h.writes slot k i he
    have hbelow := (h.below r hr).2
    have hprops := h.props
    omega
  | _ => exact nomatch hindex

theorem PoolInv.kept (h : PoolInv pools l) : PoolsKept l := by
  have hnodes : (nodeSlots l).length ≤ dtbMaxNodes := by
    rw [h.slots, List.length_range]
    exact h.nodes
  have hcount : (propIndices l).length ≤ dtbMaxProps := by
    have hsub := List.subperm_of_subset h.indices_nodup
      fun i hi => List.mem_range.mpr (h.index_lt i hi)
    have hle := hsub.length_le
    rwa [List.length_range] at hle
  refine ⟨⟨?_, fun slot hslot => ?_⟩, hnodes, ⟨h.indices_nodup, h.index_lt⟩, hcount,
    h.apart.imp fun hrs => ⟨hrs.1.ne, .inl hrs.2⟩, fun r hr => (h.below r hr).2.trans h.props,
    h.writes, h.depth⟩
  · rw [h.slots]
    exact List.nodup_range
  · rw [h.slots, List.mem_range] at hslot
    exact hslot.trans_le h.nodes

end Events

/-- The log has grown, and the properties written since are of nodes with slots in `own`. -/
structure Grows (own : ℕ → Prop) (l l' : List ParseEvent) : Prop where
  keeps : l <+: l'
  writes : ∀ w ∈ propWrites l', w ∈ propWrites l ∨ own w.1

/-- The node of a main loop: it has its slot, the look-ahead has reserved its properties, and the
properties it has are those written for it. -/
structure Open (pools : Pools) (l : List ParseEvent) (propCount : ℕ) (node : DtbNode) : Prop where
  taken : node.slot < pools.nodeUsed
  room : 0 < propCount → ⟨node.slot, node.propSlot, propCount⟩ ∈ reservations l
  written : ∀ k, (node.slot, k) ∈ propWrites l → k < node.props.length

/-- Some use of the pools agrees with the log. -/
def Agrees (l : List ParseEvent) : Prop := ∃ pools, PoolInv pools l

section Growth
variable {own own' : ℕ → Prop} {l l' l'' : List ParseEvent} {pools pools' : Pools}
  {propCount : ℕ} {node : DtbNode}

theorem Grows.refl (own : ℕ → Prop) (l : List ParseEvent) : Grows own l l :=
  ⟨List.prefix_refl l, fun _ h => .inl h⟩

theorem Grows.trans (h : Grows own l l') (h' : Grows own l' l'') : Grows own l l'' :=
  ⟨h.keeps.trans h'.keeps, fun w hw => (h'.writes w hw).elim (h.writes w) .inr⟩

theorem Grows.mono (h : Grows own l l') (hle : ∀ slot, own slot → own' slot) : Grows own' l l' :=
  ⟨h.keeps, fun w hw => (h.writes w hw).imp_right (hle w.1)⟩

theorem Grows.event {e : ParseEvent} (own : ℕ → Prop) (l : List ParseEvent)
    (he : propWrites [e] = []) : Grows own l (l ++ [e]) := by
  refine ⟨List.prefix_append l [e], fun w hw => .inl ?_⟩
  have hsame : propWrites (l ++ [e]) = propWrites l := by
    unfold propWrites at he ⊢
    rw [List.filterMap_append, he, List.append_nil]
  rwa [hsame] at hw

theorem reservations_mono (h : l <+: l') {r : Slice} (hr : r ∈ reservations l) :
    r ∈ reservations l' := by
  rw [mem_reservations] at hr ⊢
  exact h.subset hr

theorem Open.grows (h : Open pools l propCount node) (hg : Grows (pools.nodeUsed ≤ ·) l l')
    (hle : pools.nodeUsed ≤ pools'.nodeUsed) : Open pools' l' propCount node := by
  refine ⟨h.taken.trans_le hle, fun hpos => reservations_mono hg.keeps (h.room hpos),
    fun k hk => ?_⟩
  rcases hg.writes _ hk with hold | hnew
  · exact h.written k hold
  · exact absurd h.taken (Nat.not_lt.mpr hnew)

end Growth

section Parser
variable {mem : LoggedMemory} {p : Parser}

/-- The fields that a property of cells leaves alone. -/
theorem cellProps_frame {m : Readable} {name data len : ℕ} {node node' : DtbNode}
    (h : cellProps m name data len node = some node') :
    node'.slot = node.slot ∧ node'.propSlot = node.propSlot ∧ node'.props = node.props := by
  unfold cellProps at h
  obtain ⟨ac, -, h⟩ := Option.bind_eq_some_iff.mp h
  split at h
  · obtain ⟨cells, -, h⟩ := Option.bind_eq_some_iff.mp h
    cases h
    exact ⟨rfl, rfl, rfl⟩
  obtain ⟨sc, -, h⟩ := Option.bind_eq_some_iff.mp h
  split at h
  · obtain ⟨cells, -, h⟩ := Option.bind_eq_some_iff.mp h
    cases h
    exact ⟨rfl, rfl, rfl⟩
  obtain ⟨ph, -, h⟩ := Option.bind_eq_some_iff.mp h
  split at h
  · obtain ⟨cells, -, h⟩ := Option.bind_eq_some_iff.mp h
    cases h
    exact ⟨rfl, rfl, rfl⟩
  · cases h
    exact ⟨rfl, rfl, rfl⟩

/-- What the parse of a node or of the rest of a node establishes. -/
def Ran (own : ℕ → Prop) (pools : Pools) (l : List ParseEvent)
    (r : Option (DtbNode × ℕ) × Pools) (l' : List ParseEvent) : Prop :=
  PoolInv r.2 l' ∧ pools.nodeUsed ≤ r.2.nodeUsed ∧ Grows own l l'

/-- The slots of a node's own and of the nodes behind it. -/
def OwnOrLater (slot n : ℕ) : ℕ → Prop := fun s => s = slot ∨ n ≤ s

/-- A property is written into the slice of an open node, which stays open. -/
theorem parsePropLog_meets {pools : Pools} {l : List ParseEvent} {propCount : ℕ} {node : DtbNode}
    (cur : ℕ) (h : PoolInv pools l) (ho : Open pools l propCount node) :
    Meets (parsePropLog mem p propCount cur node) l
      (fun r l' => PoolInv pools l' ∧ Grows (· = node.slot) l l' ∧
        ∀ node' cur', r = some (node', cur') →
          node'.slot = node.slot ∧ Open pools l' propCount node') Agrees := by
  have hnone : PoolInv pools l ∧ Grows (· = node.slot) l l ∧
      ∀ (node' : DtbNode) (cur' : ℕ), none = some (node', cur') →
        node'.slot = node.slot ∧ Open pools l propCount node' :=
    ⟨h, .refl _ l, fun _ _ hr => nomatch hr⟩
  unfold parsePropLog
  split
  · exact meets_pure hnone
  refine meets_bind (meets_look (fun plen _ => ?_) ⟨pools, h⟩)
  refine meets_bind (meets_look (fun nameoff _ => ?_) ⟨pools, h⟩)
  split
  · exact meets_pure hnone
  dsimp only
  split
  · exact meets_pure hnone
  next hroom =>
    have hres := ho.room (by omega)
    have hnew : (node.slot, node.props.length) ∉ propWrites l := fun hmem =>
      lt_irrefl _ (ho.written _ hmem)
    have hk : node.props.length < propCount := Nat.lt_of_not_le hroom
    have hinv := h.prop hres hk hnew
    have hwrites : propWrites (l ++ [.prop node.slot node.props.length
        (node.propSlot + node.props.length)]) =
        propWrites l ++ [(node.slot, node.props.length)] := by simp [propWrites]
    refine meets_bind (meets_emit ?_)
    refine meets_bind (meets_look (fun type _ => ?_) ⟨pools, hinv⟩)
    refine meets_bind (meets_look (fun node' hcells => ?_) ⟨pools, hinv⟩)
    obtain ⟨hslot, hpropSlot, hprops⟩ := cellProps_frame (Outcome.ofRead_eq_ok.mp hcells)
    refine meets_pure ⟨hinv, ⟨List.prefix_append _ _, fun w hw => ?_⟩, fun node'' cur' hr => ?_⟩
    · rw [hwrites, List.mem_append, List.mem_singleton] at hw
      exact hw.imp_right fun heq => congrArg Prod.fst heq
    · obtain ⟨rfl, -⟩ := Prod.mk.inj (Option.some.inj hr)
      refine ⟨hslot, ?_, fun hpos => ?_, fun k hmem => ?_⟩
      · exact hslot ▸ ho.taken
      · dsimp only
        rw [hslot, hpropSlot]
        exact reservations_mono (List.prefix_append _ _) hres
      · dsimp only at hmem ⊢
        rw [hslot, hwrites, List.mem_append, List.mem_singleton] at hmem
        rw [List.length_append, List.length_singleton, hprops]
        rcases hmem with hold | heq
        · exact (ho.written k hold).trans (Nat.lt_succ_self _)
        · rw [(Prod.mk.inj heq).2]
          exact Nat.lt_succ_self _

/-- What every call of `parse_node` keeps. -/
def NodeMeets (mem : LoggedMemory) (p : Parser) (fuel : ℕ) : Prop :=
  ∀ depth pools cur parent l, PoolInv pools l → depth ≤ pools.nodeUsed + 1 →
    Meets (parseNodeLog mem p fuel depth pools cur parent) l (Ran (pools.nodeUsed ≤ ·) pools l)
      Agrees

/-- What the main loop of an open node keeps. -/
def LoopMeets (mem : LoggedMemory) (p : Parser) (fuel : ℕ) : Prop :=
  ∀ depth pools propCount cur node l, PoolInv pools l → Open pools l propCount node →
    depth ≤ pools.nodeUsed →
    Meets (parseLoopLog mem p fuel depth pools propCount cur node) l
      (Ran (OwnOrLater node.slot pools.nodeUsed) pools l) Agrees

section Rounds
variable {fuel depth propCount : ℕ} {pools pools' : Pools} {l l' : List ParseEvent}
  {node node' : DtbNode}

theorem allocNode_some {slot : ℕ} (h : allocNode pools = some (slot, pools')) :
    pools.nodeUsed < dtbMaxNodes ∧ slot = pools.nodeUsed ∧
      pools' = { pools with nodeUsed := pools.nodeUsed + 1 } := by
  unfold allocNode at h
  split at h
  · cases h
  next hroom =>
    obtain ⟨hslot, hpools⟩ := Prod.mk.inj (Option.some.inj h)
    exact ⟨Nat.lt_of_not_le hroom, hslot.symm, hpools.symm⟩

theorem allocProps_some {count start : ℕ} (hsmall : pools.propUsed + count < 4294967296)
    (h : allocProps pools count = some (start, pools')) :
    pools.propUsed + count ≤ dtbMaxProps ∧ start = pools.propUsed ∧
      pools' = ⟨pools.nodeUsed, pools.propUsed + count⟩ := by
  unfold allocProps at h
  rw [u32_of_lt hsmall] at h
  split at h
  · cases h
  next hroom =>
    obtain ⟨hstart, hpools⟩ := Prod.mk.inj (Option.some.inj h)
    exact ⟨Nat.le_of_not_lt hroom, hstart.symm, hpools.symm⟩

theorem Open.new (h : PoolInv pools l) (hused : pools'.nodeUsed = pools.nodeUsed + 1)
    (hg : Grows (fun _ => False) l l') (hslot : node.slot = pools.nodeUsed)
    (hres : 0 < propCount → ⟨node.slot, node.propSlot, propCount⟩ ∈ reservations l') :
    Open pools' l' propCount node := by
  refine ⟨by omega, hres, fun k hk => ?_⟩
  rcases hg.writes _ hk with hold | hno
  · obtain ⟨index, hwrite⟩ := mem_propWrites.mp hold
    obtain ⟨r, hr, hrslot, -⟩ := h.writes _ _ _ hwrite
    have hbelow := (h.below r hr).1
    omega
  · exact hno.elim

theorem LoopMeets.new (hloop : LoopMeets mem p fuel) (h : PoolInv pools l)
    (hdepth : depth ≤ pools.nodeUsed + 1) (h' : PoolInv pools' l')
    (hused : pools'.nodeUsed = pools.nodeUsed + 1) (hg : Grows (fun _ => False) l l')
    (hslot : node.slot = pools.nodeUsed)
    (hres : 0 < propCount → ⟨node.slot, node.propSlot, propCount⟩ ∈ reservations l') (cur : ℕ) :
    Meets (parseLoopLog mem p fuel depth pools' propCount cur node) l'
      (Ran (pools.nodeUsed ≤ ·) pools l) Agrees := by
  have ho : Open pools' l' propCount node := .new h hused hg hslot hres
  refine meets_mono (hloop depth pools' propCount cur node l' h' ho (by omega)) fun r l'' hr => ?_
  obtain ⟨hinv, hle, hmore⟩ := hr
  refine ⟨hinv, by omega, (hg.mono fun _ hno => hno.elim).trans (hmore.mono ?_)⟩
  rintro slot (rfl | hslot')
  · exact hslot.ge
  · omega

theorem LoopMeets.next (hloop : LoopMeets mem p fuel) (hdepth : depth ≤ pools.nodeUsed)
    (h' : PoolInv pools' l') (hle : pools.nodeUsed ≤ pools'.nodeUsed)
    (hg : Grows (OwnOrLater node.slot pools.nodeUsed) l l')
    (ho : Open pools' l' propCount node') (hslot : node'.slot = node.slot) (cur : ℕ) :
    Meets (parseLoopLog mem p fuel depth pools' propCount cur node') l'
      (Ran (OwnOrLater node.slot pools.nodeUsed) pools l) Agrees := by
  refine meets_mono (hloop _ _ _ cur _ _ h' ho (hdepth.trans hle)) fun r l'' hr => ?_
  obtain ⟨hinv, hle', hmore⟩ := hr
  rw [hslot] at hmore
  exact ⟨hinv, hle.trans hle', hg.trans (hmore.mono fun _ hown => hown.imp_right hle.trans)⟩

theorem LoopMeets.nodeMeets (hloop : LoopMeets mem p fuel) : NodeMeets mem p (fuel + 1) := by
  intro depth pools name parent l h hdepth
  have hcall := h.call (hdepth.trans (Nat.succ_le_succ h.nodes))
  rw [parseNodeLog]
  refine meets_bind (meets_emit ?_)
  refine meets_bind (meets_look (fun stop _ => ?_) ⟨pools, hcall⟩)
  dsimp only
  split
  next => exact meets_pure ⟨hcall, le_refl _, .event _ l rfl⟩
  next slot pools1 halloc =>
    obtain ⟨hroom, rfl, rfl⟩ := allocNode_some halloc
    have hinv := hcall.node hroom
    have hgrows : Grows (fun _ => False) l (l ++ [.call depth] ++ [.node pools.nodeUsed]) :=
      (Grows.event _ l rfl).trans (.event _ _ rfl)
    refine meets_bind (meets_emit ?_)
    refine meets_bind (meets_look (fun propCount hcount => ?_) ⟨_, hinv⟩)
    have hsmall := countProps_le hcount (structAt_wordPlace _)
    have hmax : dtbMaxProps = 1024 := rfl
    have hprops := hinv.props
    dsimp only at hprops
    split
    next hpos =>
      split
      next => exact meets_pure ⟨hinv, Nat.le_succ _, hgrows.mono fun _ hno => hno.elim⟩
      next propSlot pools2 hreserve =>
        obtain ⟨hroom', rfl, rfl⟩ := allocProps_some (by dsimp only; omega) hreserve
        have hbelow (r : Slice) (hr : r ∈ reservations
            (l ++ [.call depth] ++ [.node pools.nodeUsed])) : r.slot < pools.nodeUsed := by
          refine (h.below r ?_).1
          simpa [reservations] using hr
        have hres := hinv.reserve (Nat.lt_succ_self _) hbelow hroom'
        refine meets_bind (meets_emit ?_)
        refine hloop.new h hdepth hres rfl (hgrows.trans (.event _ _ rfl)) rfl (fun _ => ?_) _
        exact mem_reservations.mpr (List.mem_append_right _ (List.mem_singleton_self _))
    next hnone => exact hloop.new h hdepth hinv rfl hgrows rfl (fun hpos => absurd hpos hnone) _

theorem LoopMeets.succ (hloop : LoopMeets mem p fuel) (hnode : NodeMeets mem p fuel) :
    LoopMeets mem p (fuel + 1) := by
  intro depth pools propCount cur node l h ho hdepth
  have hstop (r : Option (DtbNode × ℕ)) :
      Ran (OwnOrLater node.slot pools.nodeUsed) pools l (r, pools) l :=
    ⟨h, le_refl _, .refl _ l⟩
  rw [parseLoopLog]
  split
  · exact meets_pure (hstop none)
  refine meets_bind (meets_look (fun tok _ => ?_) ⟨pools, h⟩)
  dsimp only
  split
  · exact hloop _ _ _ _ _ _ h ho hdepth
  split
  · exact meets_pure (hstop _)
  split
  · refine meets_bind (meets_mono (parsePropLog_meets _ h ho) fun r l' hr => ?_)
    obtain ⟨h', hgrows, hopen⟩ := hr
    have hown := hgrows.mono fun slot hslot =>
      (Or.inl hslot : OwnOrLater node.slot pools.nodeUsed slot)
    cases r with
    | none => exact meets_pure ⟨h', le_refl _, hown⟩
    | some r =>
      obtain ⟨hslot, ho'⟩ := hopen r.1 r.2 rfl
      exact hloop.next hdepth h' (le_refl _) hown ho' hslot r.2
  split
  · refine meets_bind (meets_mono (hnode _ _ _ _ _ h (Nat.succ_le_succ hdepth))
      fun r l' hr => ?_)
    obtain ⟨h', hle, hgrows⟩ := hr
    have hlater := hgrows.mono fun slot hslot =>
      (Or.inr hslot : OwnOrLater node.slot pools.nodeUsed slot)
    obtain ⟨_ | ⟨child, cur'⟩, pools'⟩ := r
    · exact meets_pure ⟨h', hle, hlater⟩
    · have hopen := ho.grows hgrows hle
      have ho' : Open pools' l' propCount { node with children := node.children ++ [child] } :=
        ⟨hopen.taken, hopen.room, hopen.written⟩
      exact hloop.next hdepth h' hle hlater ho' rfl cur'
  · exact hloop _ _ _ _ _ _ h ho hdepth

end Rounds

theorem parseLog_meets (fuel : ℕ) : NodeMeets mem p fuel ∧ LoopMeets mem p fuel := by
  induction fuel with
  | zero =>
    constructor
    · intro depth pools cur parent l h _
      rw [parseNodeLog]
      exact meets_outOfSteps ⟨pools, h⟩
    · intro depth pools propCount cur node l h _ _
      rw [parseLoopLog]
      exact meets_outOfSteps ⟨pools, h⟩
  | succ fuel ih => exact ⟨LoopMeets.nodeMeets ih.2, LoopMeets.succ ih.2 ih.1⟩

theorem parseTreeLog_meets (fuel bootCpuid : ℕ) :
    Meets (parseTreeLog mem p fuel bootCpuid) [] (fun _ => Agrees) Agrees := by
  have hstart : Agrees [] := ⟨_, poolInv_nil⟩
  unfold parseTreeLog
  refine meets_bind (meets_look (fun root _ => ?_) hstart)
  cases root with
  | none => exact meets_pure hstart
  | some cur =>
    refine meets_bind (meets_mono ((parseLog_meets fuel).1 1 _ cur none [] poolInv_nil (le_refl _))
      fun r l' hr => ?_)
    obtain ⟨hinv, -, -⟩ := hr
    obtain ⟨_ | ⟨root, stop⟩, pools⟩ := r
    · exact meets_pure ⟨_, hinv⟩
    · refine meets_bind (meets_look (fun compat _ => ?_) ⟨_, hinv⟩)
      refine meets_bind (meets_look (fun memory _ => ?_) ⟨_, hinv⟩)
      exact meets_pure ⟨_, hinv⟩

end Parser

theorem dtbParseLog_meets (mem : LoggedMemory) (fuel blob blobLen nodePool propPool : ℕ) :
    Meets (dtbParseLog mem fuel blob blobLen nodePool propPool) [] (fun _ => Agrees) Agrees := by
  have hstart : Agrees [] := ⟨_, poolInv_nil⟩
  unfold dtbParseLog
  dsimp only
  split
  · exact meets_pure hstart
  split
  · exact meets_pure hstart
  refine meets_bind (meets_look (fun magic _ => ?_) hstart)
  split
  · exact meets_pure hstart
  refine meets_bind (meets_look (fun totalsize _ => ?_) hstart)
  refine meets_bind (meets_look (fun offStruct _ => ?_) hstart)
  refine meets_bind (meets_look (fun offStrings _ => ?_) hstart)
  refine meets_bind (meets_look (fun bootCpuid _ => ?_) hstart)
  refine meets_bind (meets_look (fun sizeStrings _ => ?_) hstart)
  refine meets_bind (meets_look (fun sizeStruct _ => ?_) hstart)
  split
  · exact meets_pure hstart
  split
  · exact meets_pure hstart
  split
  · exact meets_pure hstart
  split
  · exact meets_pure hstart
  · exact parseTreeLog_meets _ _

/-- Whatever the parser reads, also where its reads see what it has written, it keeps its pools as
far as it gets; over a memory that stays the same it is `dtb_parse` that does. -/
theorem pools_never_overrun (mem : LoggedMemory) (fuel blob blobLen nodePool propPool : ℕ) :
    PoolsKept (dtbParseLog mem fuel blob blobLen nodePool propPool []).1 ∧
      ∀ m, mem = (fun _ => m) → (dtbParseLog mem fuel blob blobLen nodePool propPool []).2 =
        dtbParse m fuel blob blobLen nodePool propPool := by
  constructor
  · obtain ⟨pools, hinv⟩ :=
      (dtbParseLog_meets mem fuel blob blobLen nodePool propPool).log fun _ _ h => h
    exact hinv.kept
  · rintro m rfl
    exact dtbParseLog_computes fuel blob blobLen nodePool propPool []

end Leg

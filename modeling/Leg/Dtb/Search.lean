import Leg.Dtb.Parse
import Mathlib.Data.List.Lex

/-! `dtb_find_phandle` and `dtb_find_compatible`: which node of the tree they find. Nodes are in
document order when their places are in lexicographic order. -/
namespace Leg

mutual

/-- A recursive scan of the tree for a node that passes a test: the place of the node. -/
def scanNode (test : DtbNode → Option Bool) : DtbNode → Option (Option (List ℕ))
  | node@⟨_, _, _, _, _, _, _, children⟩ => do
    if ← test node then return some [] else scanChildren test children 0

/-- The loop over the children, from the one with the number `i` on. -/
def scanChildren (test : DtbNode → Option Bool) : List DtbNode → ℕ → Option (Option (List ℕ))
  | [], _ => some none
  | c :: cs, i => do
    match ← scanNode test c with
    | some place => return some (i :: place)
    | none => scanChildren test cs (i + 1)

end

def phandleScan (ph : ℕ) : DtbNode → Option (Option (List ℕ)) :=
  scanNode fun node => some (node.phandle == ph)

def dtbFindPhandle (tree : DtbTree) (phandle : ℕ) : Option (Option (List ℕ)) :=
  if phandle = 0 then some none else phandleScan phandle tree.root

/-- The loop of `node_has_compat`. -/
def compatLoop (m : Readable) (compat : List UInt8) (stop : ℕ) : (fuel cur : ℕ) → Option Bool
  | 0, _ => none
  | fuel + 1, cur =>
    if cur < stop then do
      if ← strcmpEq m cur compat then return true
      let entry ← cstr m cur
      compatLoop m compat stop fuel (u32 (cur + u32 (entry.length + 1)))
    else some false

/-- `"compatible"`. -/
def compatible : List UInt8 := ascii ['c', 'o', 'm', 'p', 'a', 't', 'i', 'b', 'l', 'e']

def nodeHasCompat (m : Readable) (fuel : ℕ) (compat : List UInt8) (node : DtbNode) :
    Option Bool := do
  match ← dtbGetProp m node compatible with
  | none => return false
  | some p =>
    if p.len = 0 then return false
    else compatLoop m compat (u32 (p.data + p.len)) fuel p.data

def compatScan (m : Readable) (fuel : ℕ) (compat : List UInt8) :
    DtbNode → Option (Option (List ℕ)) := scanNode (nodeHasCompat m fuel compat)

def dtbFindCompatible (m : Readable) (fuel : ℕ) (tree : DtbTree) (compat : List UInt8) :
    Option (Option (List ℕ)) := compatScan m fuel compat tree.root

/-- The place of the first node with a property in document order, or nothing where no node has
it. -/
def FirstIn (P : DtbNode → Prop) (root : DtbNode) : Option (List ℕ) → Prop
  | none => ∀ place n, root.get? place = some n → ¬P n
  | some place => (∃ n, root.get? place = some n ∧ P n) ∧
      ∀ place' n, root.get? place' = some n → P n → place ≤ place'

/-- The string at an address is `s`. -/
def StringAt (m : Memory) (a : ℕ) (s : List UInt8) : Prop :=
  ∀ (k : ℕ) (h : k < (s ++ [0]).length), m (u32 (a + k)) = (s ++ [0])[k]

instance (m : Memory) (a : ℕ) (s : List UInt8) : Decidable (StringAt m a s) :=
  inferInstanceAs (Decidable (∀ (k : ℕ) (h : k < (s ++ [0]).length),
    m (u32 (a + k)) = (s ++ [0])[k]))

/-- The first property of a node with the name `compatible`. -/
def compatibleProp (m : Memory) (node : DtbNode) : Option DtbProp :=
  node.props.find? fun q => StringAt m q.name compatible

/-- The data of a property is a list of NUL-terminated strings, none of them with a NUL inside. -/
structure StringList (m : Memory) (q : DtbProp) (entries : List (List UInt8)) : Prop where
  proper : ∀ e ∈ entries, (0 : UInt8) ∉ e
  bytes : m.readable.Holds q.data (entries.flatMap fun e => e ++ [0])
  len : q.len = (entries.flatMap fun e => e ++ [0]).length
  fits : q.data + q.len < 4294967296

/-- The compatible list of a node has `compat` as an entry. -/
def HasEntry (m : Memory) (compat : List UInt8) (node : DtbNode) : Prop :=
  ∃ q entries, compatibleProp m node = some q ∧ StringList m q entries ∧ compat ∈ entries

/-- A search for a node: the first one among some siblings and the nodes below them, which are
numbered from `i` on. -/
def FirstAmong (P : DtbNode → Prop) (cs : List DtbNode) (i : ℕ) : Option (List ℕ) → Prop
  | none => ∀ (j : ℕ) (c : DtbNode) place n, cs[j]? = some c → c.get? place = some n → ¬P n
  | some p =>
    (∃ (j : ℕ) (c : DtbNode) (place : List ℕ) (n : DtbNode), p = (i + j) :: place ∧
      cs[j]? = some c ∧ c.get? place = some n ∧ P n) ∧
    ∀ (j : ℕ) (c : DtbNode) place n, cs[j]? = some c → c.get? place = some n → P n →
      p ≤ (i + j) :: place

section Scan
variable {P : DtbNode → Prop} {test : DtbNode → Option Bool}

/-- The test decides the property. -/
def Decides (test : DtbNode → Option Bool) (P : DtbNode → Prop) (n : DtbNode) : Prop :=
  ∃ b, test n = some b ∧ (b = true ↔ P n)

/-- The first node among siblings is the first one of the first child, or one behind it. -/
theorem firstAmong_cons {c : DtbNode} {cs : List DtbNode} {i : ℕ} {r r' : Option (List ℕ)}
    (hc : FirstIn P c r) (hcs : FirstAmong P cs (i + 1) r') :
    FirstAmong P (c :: cs) i (r.elim r' fun place => some (i :: place)) := by
  cases r with
  | some place =>
    obtain ⟨⟨n, hn, hP⟩, hfirst⟩ := hc
    refine ⟨⟨0, c, place, n, rfl, rfl, hn, hP⟩, fun j c' place' n' hj hn' hP' => ?_⟩
    cases j with
    | zero =>
      obtain rfl := Option.some.inj hj
      exact List.cons_le_cons _ (hfirst place' n' hn' hP')
    | succ j => exact le_of_lt (List.Lex.rel (by omega))
  | none =>
    cases r' with
    | none =>
      intro j c' place' n' hj hn'
      cases j with
      | zero =>
        obtain rfl := Option.some.inj hj
        exact hc place' n' hn'
      | succ j => exact hcs j c' place' n' hj hn'
    | some p =>
      obtain ⟨⟨j, c', place, n, hp, hj, hn, hP⟩, hfirst⟩ := hcs
      refine ⟨⟨j + 1, c', place, n, ?_, hj, hn, hP⟩, fun j c' place' n' hj hn' hP' => ?_⟩
      · rw [hp, Nat.add_assoc, Nat.add_comm 1]
      · cases j with
        | zero =>
          obtain rfl := Option.some.inj hj
          exact absurd hP' (hc place' n' hn')
        | succ j =>
          have hle := hfirst j c' place' n' hj hn' hP'
          rwa [Nat.add_assoc, Nat.add_comm 1] at hle

/-- The first node of a tree is its root, or the first one among the children. -/
theorem firstIn_node {n : DtbNode} {r : Option (List ℕ)} (hroot : ¬P n)
    (h : FirstAmong P n.children 0 r) : FirstIn P n r := by
  have hbelow {place : List ℕ} {n' : DtbNode} (hn' : n.get? place = some n') (hP : P n') :
      ∃ i is c, place = i :: is ∧ n.children[i]? = some c ∧ c.get? is = some n' := by
    cases place with
    | nil =>
      obtain rfl := Option.some.inj hn'
      exact absurd hP hroot
    | cons i is =>
      obtain ⟨c, hc, hn'⟩ := Option.bind_eq_some_iff.mp hn'
      exact ⟨i, is, c, rfl, hc, hn'⟩
  cases r with
  | none =>
    intro place n' hn' hP
    obtain ⟨i, is, c, -, hc, hn'⟩ := hbelow hn' hP
    exact h i c is n' hc hn' hP
  | some p =>
    obtain ⟨⟨j, c, place, n', rfl, hj, hn', hP⟩, hfirst⟩ := h
    constructor
    · rw [Nat.zero_add]
      exact ⟨n', Option.bind_eq_some_iff.mpr ⟨c, hj, hn'⟩, hP⟩
    · intro place' m' hm' hP'
      obtain ⟨i, is, c', rfl, hc', hm'⟩ := hbelow hm' hP'
      have hle := hfirst i c' is m' hc' hm' hP'
      rwa [Nat.zero_add i] at hle

mutual

theorem scanNode_first : ∀ (n : DtbNode),
    (∀ place n', n.get? place = some n' → Decides test P n') →
    ∃ r, scanNode test n = some r ∧ FirstIn P n r
  | ⟨name, slot, propSlot, props, phandle, ac, sc, children⟩, htest => by
    obtain ⟨b, hb, hP⟩ := htest [] _ rfl
    obtain ⟨r, hr, hfirst⟩ := scanChildren_first children 0 fun j c place n' hj hn' =>
      htest (j :: place) n' (Option.bind_eq_some_iff.mpr ⟨c, hj, hn'⟩)
    rw [scanNode, hb, Option.bind_eq_bind, Option.bind_some]
    cases b with
    | true => exact ⟨some [], rfl, ⟨_, rfl, hP.mp rfl⟩,
      fun _ _ _ _ => not_lt.mp (List.not_lt_nil _)⟩
    | false => exact ⟨r, hr, firstIn_node (fun hroot => nomatch hP.mpr hroot) hfirst⟩

theorem scanChildren_first : ∀ (cs : List DtbNode) (i : ℕ),
    (∀ (j : ℕ) (c : DtbNode) place n', cs[j]? = some c → c.get? place = some n' →
      Decides test P n') →
    ∃ r, scanChildren test cs i = some r ∧ FirstAmong P cs i r
  | [], i, _ => ⟨none, by rw [scanChildren], fun j c place n hj _ _ => nomatch hj⟩
  | c :: cs, i, htest => by
    obtain ⟨r, hr, hfirst⟩ := scanNode_first c fun place n' => htest 0 c place n' rfl
    obtain ⟨r', hr', hfirst'⟩ := scanChildren_first cs (i + 1) fun j => htest (j + 1)
    refine ⟨_, ?_, firstAmong_cons hfirst hfirst'⟩
    rw [scanChildren, hr, Option.bind_eq_bind, Option.bind_some]
    cases r with
    | none => exact hr'
    | some place => rfl

end

end Scan

section Names
variable {m : Memory} {a : ℕ} {s : List UInt8}

theorem stringAt_nil : StringAt m a [] ↔ m (u32 a) = 0 := by
  constructor
  · intro h
    exact h 0 (Nat.succ_pos _)
  · intro h k hk
    obtain rfl : k = 0 := by simpa using hk
    exact h

theorem stringAt_cons {c : UInt8} :
    StringAt m a (c :: s) ↔ m (u32 a) = c ∧ StringAt m (a + 1) s := by
  constructor
  · intro h
    refine ⟨h 0 (Nat.succ_pos _), fun k hk => ?_⟩
    rw [Nat.add_assoc, Nat.add_comm 1]
    exact h (k + 1) (Nat.succ_lt_succ hk)
  · rintro ⟨hc, h⟩ k hk
    cases k with
    | zero => exact hc
    | succ k =>
      rw [← Nat.add_assoc, Nat.add_right_comm]
      exact h k (Nat.lt_of_succ_lt_succ hk)

theorem strcmpEq_stringAt (m : Memory) (a : ℕ) (s : List UInt8) :
    strcmpEq m.readable a s = some (decide (StringAt m a s)) := by
  induction s generalizing a with
  | nil =>
    rw [strcmpEq, Memory.readable, Option.map_some, decide_eq_decide.mpr stringAt_nil]
    rfl
  | cons c s ih =>
    rw [strcmpEq, Memory.readable, Option.bind_eq_bind, Option.bind_some]
    by_cases hc : m (u32 a) = c
    · have hrest : StringAt m a (c :: s) ↔ StringAt m (a + 1) s :=
        stringAt_cons.trans (and_iff_right hc)
      rw [if_pos hc, decide_eq_decide.mpr hrest]
      exact ih (a + 1)
    · have hno : ¬StringAt m a (c :: s) := fun h => hc (stringAt_cons.mp h).1
      rw [if_neg hc, decide_eq_false hno]
      rfl

theorem findProp_eq (m : Memory) (name : List UInt8) (props : List DtbProp) :
    findProp m.readable name props = some (props.find? fun q => StringAt m q.name name) := by
  induction props with
  | nil => rfl
  | cons q props ih =>
    rw [findProp, strcmpEq_stringAt, Option.bind_eq_bind, Option.bind_some, List.find?_cons, ih]
    by_cases hq : StringAt m q.name name
    · simp [hq]
    · simp [hq]

end Names

section Entries
variable {m : Memory} {compat : List UInt8} {n : DtbNode}

/-- The loop goes from entry to entry, and compares each as a whole. -/
theorem compatLoop_entries (hcompat : (0 : UInt8) ∉ compat) {entries : List (List UInt8)} :
    ∀ {cur stop fuel : ℕ}, (∀ e ∈ entries, (0 : UInt8) ∉ e) →
      m.readable.Holds cur (entries.flatMap fun e => e ++ [0]) →
      stop = cur + (entries.flatMap fun e => e ++ [0]).length → stop < 4294967296 →
      entries.length < fuel →
      compatLoop m.readable compat stop fuel cur = some (decide (compat ∈ entries)) := by
  induction entries with
  | nil =>
    intro cur stop fuel _ _ hstop _ hfuel
    obtain ⟨k, rfl⟩ := Nat.exists_eq_succ_of_ne_zero (Nat.ne_zero_of_lt hfuel)
    rw [compatLoop, if_neg (by rw [hstop]; exact lt_irrefl _)]
    rfl
  | cons e entries ih =>
    intro cur stop fuel hproper hholds hstop hfits hfuel
    obtain ⟨k, rfl⟩ := Nat.exists_eq_succ_of_ne_zero (Nat.ne_zero_of_lt hfuel)
    have he : (0 : UInt8) ∉ e := hproper e (List.mem_cons_self ..)
    rw [List.flatMap_cons] at hholds hstop
    obtain ⟨hentry, hrest⟩ := Readable.holds_append.mp hholds
    have hentryLen : (e ++ [0]).length = e.length + 1 := by
      rw [List.length_append, List.length_singleton]
    rw [List.length_append, hentryLen] at hstop
    rw [hentryLen] at hrest
    have hlen : u32 (e.length + 1) = e.length + 1 := u32_of_lt (by omega)
    have hnext : u32 (cur + u32 (e.length + 1)) = cur + (e.length + 1) := by
      rw [hlen, u32_of_lt (by omega)]
    have hstring : cstr m.readable cur = some e := hentry.cstrWithin he (by omega)
    rw [compatLoop, if_pos (by omega), hentry.strcmpEq he hcompat, hstring]
    simp only [Option.bind_eq_bind, Option.bind_some]
    rw [hnext, ih (fun e' he' => hproper e' (List.mem_cons_of_mem _ he')) hrest (by omega) hfits
      (Nat.lt_of_succ_lt_succ hfuel)]
    by_cases heq : e = compat
    · simp [heq]
    · simp [heq, Ne.symm heq]

theorem StringList.count_le {q : DtbProp} {entries : List (List UInt8)}
    (h : StringList m q entries) : entries.length ≤ q.len := by
  rw [h.len]
  clear h
  induction entries with
  | nil => exact Nat.zero_le _
  | cons e entries ih =>
    rw [List.flatMap_cons, List.length_append, List.length_append, List.length_singleton,
      List.length_cons]
    omega

/-- `node_has_compat` tells whether the list has the entry. -/
theorem nodeHasCompat_decides (hcompat : (0 : UInt8) ∉ compat) {fuel : ℕ}
    (hfuel : 4294967296 ≤ fuel)
    (hlist : ∀ q, compatibleProp m n = some q → ∃ entries, StringList m q entries) :
    Decides (nodeHasCompat m.readable fuel compat) (HasEntry m compat) n := by
  have hprop : dtbGetProp m.readable n compatible = some (compatibleProp m n) := findProp_eq ..
  unfold Decides nodeHasCompat
  rw [hprop, Option.bind_eq_bind, Option.bind_some]
  cases hq : compatibleProp m n with
  | none =>
    have hno : ¬HasEntry m compat n := by
      rintro ⟨q, entries, hq', -⟩
      exact nomatch hq.symm.trans hq'
    exact ⟨false, rfl, iff_of_false Bool.false_ne_true hno⟩
  | some q =>
    have hloop (entries : List (List UInt8)) (h : StringList m q entries) :
        (if q.len = 0 then some false
          else compatLoop m.readable compat (u32 (q.data + q.len)) fuel q.data) =
          some (decide (compat ∈ entries)) := by
      have hcount := h.count_le
      have hfits := h.fits
      split
      next hzero =>
        have hnil : entries = [] := List.eq_nil_of_length_eq_zero (by omega)
        rw [hnil]
        rfl
      next =>
        rw [u32_of_lt hfits]
        exact compatLoop_entries hcompat h.proper h.bytes (by rw [h.len]) hfits (by omega)
    obtain ⟨entries, hentries⟩ := hlist q hq
    refine ⟨decide (compat ∈ entries), hloop entries hentries, ?_⟩
    rw [decide_eq_true_iff]
    constructor
    · intro hmem
      exact ⟨q, entries, hq, hentries, hmem⟩
    · rintro ⟨q', entries', hq', hentries', hmem⟩
      obtain rfl := Option.some.inj (hq.symm.trans hq')
      have hsame := (hloop entries hentries).symm.trans (hloop entries' hentries')
      exact (decide_eq_decide.mp (Option.some.inj hsame)).mpr hmem

end Entries

/-- In a tree whose compatible properties are lists of strings, `dtb_find_compatible` finds the
first node with the entry in document order, and `dtb_find_phandle` the first one with the
phandle; each finds none exactly where there is none. -/
theorem tree_searches (m : Memory) (tree : DtbTree) {compat : List UInt8}
    (hcompat : (0 : UInt8) ∉ compat) {fuel : ℕ} (hfuel : 4294967296 ≤ fuel)
    (hlists : ∀ place n q, tree.root.get? place = some n → compatibleProp m n = some q →
      ∃ entries, StringList m q entries) :
    (∃ r, dtbFindCompatible m.readable fuel tree compat = some r ∧
      FirstIn (HasEntry m compat) tree.root r) ∧
    ∀ h, h ≠ 0 → ∃ r, dtbFindPhandle tree h = some r ∧
      FirstIn (fun n => n.phandle = h) tree.root r := by
  constructor
  · exact scanNode_first tree.root fun place n hn =>
      nodeHasCompat_decides hcompat hfuel fun q => hlists place n q hn
  · intro h hne
    rw [dtbFindPhandle, if_neg hne]
    exact scanNode_first tree.root fun place n hn => ⟨_, rfl, beq_iff_eq⟩

/-- The name `compatible` at 64, and the list of `ab` and `a` at 75. -/
def searchMemory : Memory := fun a => (compatible ++ [0, 97, 98, 0, 97, 0]).getD (a - 64) 0

/-- A root with that list. -/
def searchTree : DtbTree := ⟨⟨0, 0, 0, [⟨64, 75, 5, .strings⟩], 7, 2, 1, []⟩, [], 0, 75⟩

/-- The entry `a` is found behind `ab`, and the phandle 7. -/
theorem searchTree_found :
    (∃ r, dtbFindCompatible searchMemory.readable 4294967296 searchTree [97] = some r ∧
      FirstIn (HasEntry searchMemory [97]) searchTree.root r) ∧
    ∃ r, dtbFindPhandle searchTree 7 = some r ∧
      FirstIn (fun n => n.phandle = 7) searchTree.root r := by
  have hlist : StringList searchMemory ⟨64, 75, 5, .strings⟩ [[97, 98], [97]] := by
    refine ⟨by decide, ⟨by decide, by decide⟩, by decide, by decide⟩
  have hlists (place : List ℕ) (n : DtbNode) (q : DtbProp)
      (hn : searchTree.root.get? place = some n) (hq : compatibleProp searchMemory n = some q) :
      ∃ entries, StringList searchMemory q entries := by
    cases place with
    | nil =>
      obtain rfl := Option.some.inj hn
      have hfirst : compatibleProp searchMemory searchTree.root = some ⟨64, 75, 5, .strings⟩ := by
        decide
      obtain rfl := Option.some.inj (hfirst.symm.trans hq)
      exact ⟨_, hlist⟩
    | cons i is => exact nomatch hn
  obtain ⟨hcompat, hphandle⟩ :=
    tree_searches searchMemory searchTree (by decide : (0 : UInt8) ∉ [97]) (le_refl _) hlists
  exact ⟨hcompat, hphandle 7 (by decide)⟩

end Leg

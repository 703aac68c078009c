import Mathlib.Data.List.TakeWhile
import Mathlib.Data.List.Nodup
import Leg.Dtb.Parse

/-! `dtb_find_node`: when the names on the way down from the root lead back to their node. -/
namespace Leg

/-- The character `/`. -/
def slash : UInt8 := 47

/-- The character `@`. -/
def atSign : UInt8 := 64

/-- The tests of `find_in_children` on the name of a child. -/
def matchesSegment (name segment : List UInt8) (segLen : ℕ) : Bool :=
  if name.length = segLen ∧ strncmpEq name segment segLen then true
  else
    -- match "foo" against "foo@addr"
    match name.findIdx? (· == atSign) with
    | some i => i = segLen && strncmpEq name segment segLen
    | none => false

/-- `find_in_children`, with the number of the child it finds. -/
def findInChildren (m : Readable) (segment : List UInt8) (segLen : ℕ) :
    List DtbNode → Option (Option ℕ)
  | [] => some none
  | c :: cs => do
    let name ← cstr m c.name
    if matchesSegment name segment segLen then return some 0
    else return (← findInChildren m segment segLen cs).map (· + 1)

/-- The loop of `dtb_find_node`, from a node on; each round takes a character of the path at
least. -/
def findLoop (m : Readable) : ℕ → DtbNode → List UInt8 → Option (Option (List ℕ))
  | 0, _, _ => none
  | _ + 1, _, [] => some (some [])
  | fuel + 1, cur, path =>
    let segment := path.takeWhile (· ≠ slash)
    let rest := (path.dropWhile (· ≠ slash)).tail
    if segment.length = 0 then findLoop m fuel cur rest
    else
      match findInChildren m path segment.length cur.children with
      | none => none
      | some none => some none
      | some (some i) =>
        match cur.children[i]? with
        | none => none
        | some c => (findLoop m fuel c rest).map fun r => r.map fun place => i :: place

def dtbFindNode (m : Readable) (root : DtbNode) : List UInt8 → Option (Option (List ℕ))
  | [] => some none
  | c :: path => if c = slash then findLoop m (path.length + 1) root path else some none

/-- What may follow a slash in a path that joins the names: single slashes between them, and
any more slashes before, between and after them. -/
inductive Joins : List (List UInt8) → List UInt8 → Prop
  | stop : Joins [] []
  | slash {names : List (List UInt8)} {path : List UInt8} : Joins names path →
      Joins names (slash :: path)
  | last (name : List UInt8) : Joins [name] name
  | name (name : List UInt8) {names : List (List UInt8)} {path : List UInt8} : Joins names path →
      Joins (name :: names) (name ++ Leg.slash :: path)

/-- The names on the way down to a node. -/
def namesTo (m : Readable) : DtbNode → List ℕ → Option (List (List UInt8))
  | _, [] => some []
  | n, i :: is => do
    let c ← n.children[i]?
    let name ← cstr m c.name
    return name :: (← namesTo m c is)

/-- The children have these names: none is empty or has a slash, and no two are the same. -/
structure SiblingNames (m : Readable) (cs : List DtbNode) (names : List (List UInt8)) : Prop where
  read : cs.map (fun c => cstr m c.name) = names.map some
  nonempty : ∀ s ∈ names, s ≠ []
  noSlash : ∀ s ∈ names, slash ∉ s
  nodup : names.Nodup

/-- At every node the children are properly named. -/
def ProperNames (m : Readable) (root : DtbNode) : Prop :=
  ∀ place n, root.get? place = some n → ∃ names, SiblingNames m n.children names

/-- A name that the segment `name` matches up to its first `@`. -/
def Captures (other name : List UInt8) : Prop :=
  atSign ∉ name ∧ ∃ addr, other = name ++ atSign :: addr

/-- On the way down no earlier sibling captures the name of a node. -/
def Uncaptured (m : Readable) : DtbNode → List ℕ → Prop
  | _, [] => True
  | n, i :: is =>
    (∀ j < i, ∀ e c s t, n.children[j]? = some e → n.children[i]? = some c →
      cstr m e.name = some s → cstr m c.name = some t → ¬Captures s t) ∧
    ∀ c, n.children[i]? = some c → Uncaptured m c is

theorem findIdx_atSign {name segment : List UInt8} (h : name.take segment.length = segment) :
    name.findIdx? (· == atSign) = some segment.length ↔ Captures name segment := by
  rw [List.findIdx?_eq_some_iff_getElem]
  constructor
  · rintro ⟨hlt, hat, hbefore⟩
    constructor
    · intro hmem
      rw [← h] at hmem
      obtain ⟨j, hj, hget⟩ := List.mem_take_iff_getElem.mp hmem
      exact hbefore j (by omega) (beq_iff_eq.mpr hget)
    · refine ⟨name.drop (segment.length + 1), ?_⟩
      rw [← beq_iff_eq.mp hat, List.getElem_cons_drop]
      conv_rhs => rw [← h]
      rw [List.length_take, Nat.min_eq_left hlt.le, List.take_append_drop]
  · rintro ⟨hno, addr, rfl⟩
    refine ⟨by simp, by simp, ?_⟩
    intro j hj hjat
    rw [List.getElem_append_left hj] at hjat
    exact hno (beq_iff_eq.mp hjat ▸ List.getElem_mem hj)

/-- The tests accept the name itself and the names it captures. -/
theorem matchesSegment_iff (name segment rest : List UInt8) :
    matchesSegment name (segment ++ rest) segment.length = true ↔
      name = segment ∨ Captures name segment := by
  have hcmp : strncmpEq name (segment ++ rest) segment.length = true ↔
      name.take segment.length = segment := by
    rw [strncmpEq_iff, List.take_left]
  unfold matchesSegment
  by_cases heq : name = segment
  · subst heq
    simp [hcmp]
  · have hfirst : ¬(name.length = segment.length ∧
        strncmpEq name (segment ++ rest) segment.length = true) := by
      rintro ⟨hlen, hs⟩
      rw [hcmp, ← hlen, List.take_length] at hs
      exact heq hs
    rw [if_neg hfirst, or_iff_right heq]
    by_cases htake : name.take segment.length = segment
    · rw [← findIdx_atSign htake]
      cases name.findIdx? (· == atSign) with
      | none => simp
      | some i => simp [hcmp, htake]
    · have hcap : ¬Captures name segment := by
        rintro ⟨-, addr, rfl⟩
        exact htake List.take_left
      have hs : strncmpEq name (segment ++ rest) segment.length = false := by
        rw [← Bool.not_eq_true, hcmp]
        exact htake
      cases name.findIdx? (· == atSign) with
      | none => simp [hcap]
      | some i => simp [hcap, hs]

section Search
variable {m : Readable} {n : DtbNode} {names : List (List UInt8)}

theorem findInChildren_eq {cs : List DtbNode} (h : cs.map (fun c => cstr m c.name) = names.map some)
    (segment : List UInt8) (segLen : ℕ) : findInChildren m segment segLen cs =
      some (names.findIdx? fun s => matchesSegment s segment segLen) := by
  induction cs generalizing names with
  | nil =>
    rw [List.map_nil, eq_comm, List.map_eq_nil_iff] at h
    rw [h]
    rfl
  | cons c cs ih =>
    cases names with
    | nil => simp at h
    | cons s names =>
      simp only [List.map_cons, List.cons.injEq] at h
      rw [findInChildren, h.1, List.findIdx?_cons]
      show (if matchesSegment s segment segLen = true then _ else _) = _
      by_cases hs : matchesSegment s segment segLen = true
      · rw [if_pos hs, if_pos hs]
        rfl
      · rw [if_neg hs, if_neg hs, ih h.2]
        rfl

theorem SiblingNames.find_iff {cs : List DtbNode} (h : SiblingNames m cs names) {i : ℕ}
    {s : List UInt8} (hi : names[i]? = some s) (rest : List UInt8) :
    findInChildren m (s ++ rest) s.length cs = some (some i) ↔
      ∀ j < i, ∀ t, names[j]? = some t → ¬Captures t s := by
  rw [findInChildren_eq h.read, Option.some.injEq, List.findIdx?_eq_some_iff_getElem]
  obtain ⟨hlt, hget⟩ := List.getElem?_eq_some_iff.mp hi
  constructor
  · rintro ⟨hlen, -, hbefore⟩ j hj t ht hcap
    obtain ⟨hjlt, rfl⟩ := List.getElem?_eq_some_iff.mp ht
    exact hbefore j hj ((matchesSegment_iff _ s rest).mpr (.inr hcap))
  · intro hno
    refine ⟨hlt, (matchesSegment_iff _ s rest).mpr (.inl hget), ?_⟩
    intro j hj hmatch
    have hjlt : j < names.length := hj.trans hlt
    rcases (matchesSegment_iff _ s rest).mp hmatch with heq | hcap
    · have := (@List.Nodup.getElem_inj_iff _ names h.nodup j hjlt i hlt).mp
        (heq.trans hget.symm)
      omega
    · exact hno j hj _ (List.getElem?_eq_getElem hjlt) hcap

theorem takeWhile_segment {s : List UInt8} (hs : slash ∉ s) :
    s.takeWhile (· ≠ slash) = s ∧ s.dropWhile (· ≠ slash) = [] ∧
      ∀ p, (s ++ slash :: p).takeWhile (· ≠ slash) = s ∧
        (s ++ slash :: p).dropWhile (· ≠ slash) = slash :: p := by
  have hall : ∀ c ∈ s, decide (c ≠ slash) = true := by
    intro c hc
    exact decide_eq_true fun e => hs (e ▸ hc)
  refine ⟨List.takeWhile_eq_self_iff.mpr hall, List.dropWhile_eq_nil_iff.mpr hall, fun p => ?_⟩
  rw [List.takeWhile_append_of_pos hall, List.dropWhile_append_of_pos hall]
  simp

/-- A round of the loop at a segment. -/
theorem findLoop_segment {fuel : ℕ} {s tail : List UInt8} (hne : s ≠ []) (hs : slash ∉ s)
    (htail : tail = [] ∨ ∃ p, tail = slash :: p) :
    findLoop m (fuel + 1) n (s ++ tail) =
      match findInChildren m (s ++ tail) s.length n.children with
      | none => none
      | some none => some none
      | some (some i) =>
        match n.children[i]? with
        | none => none
        | some c => (findLoop m fuel c tail.tail).map fun r => r.map fun place => i :: place := by
  obtain ⟨htake, hdrop, happ⟩ := takeWhile_segment hs
  obtain ⟨c, s', rfl⟩ := List.exists_cons_of_ne_nil hne
  have hpath : (c :: s' ++ tail).takeWhile (· ≠ slash) = c :: s' ∧
      (c :: s' ++ tail).dropWhile (· ≠ slash) = tail := by
    rcases htail with rfl | ⟨p, rfl⟩
    · rw [List.append_nil]
      exact ⟨htake, hdrop⟩
    · exact happ p
  conv_lhs => unfold findLoop
  dsimp only [List.cons_append] at hpath ⊢
  have hlen : ¬(c :: s').length = 0 := Nat.succ_ne_zero _
  rw [hpath.1, hpath.2, if_neg hlen]

theorem SiblingNames.name_iff {cs : List DtbNode} (h : SiblingNames m cs names) {j : ℕ}
    {t : List UInt8} : names[j]? = some t ↔ ∃ e, cs[j]? = some e ∧ cstr m e.name = some t := by
  have hread : (cs[j]?).map (fun c => cstr m c.name) = (names[j]?).map some := by
    rw [← List.getElem?_map, ← List.getElem?_map, h.read]
  cases hc : cs[j]? with
  | none =>
    rw [hc, Option.map_none, eq_comm, Option.map_eq_none_iff] at hread
    simp [hread]
  | some e =>
    rw [hc, Option.map_some, eq_comm, Option.map_eq_some_iff] at hread
    obtain ⟨t', ht', he⟩ := hread
    simp [ht', ← he]

theorem ProperNames.child (h : ProperNames m n) {i : ℕ} {c : DtbNode}
    (hc : n.children[i]? = some c) : ProperNames m c := by
  intro place x hx
  apply h (i :: place) x
  rw [DtbNode.get?, hc]
  exact hx

theorem ProperNames.node (h : SiblingNames m n.children names)
    (hbelow : ∀ c ∈ n.children, ProperNames m c) : ProperNames m n := by
  intro place x hx
  cases place with
  | nil =>
    obtain rfl := Option.some.inj hx
    exact ⟨names, h⟩
  | cons i is =>
    rw [DtbNode.get?] at hx
    obtain ⟨c, hc, hx⟩ := Option.bind_eq_some_iff.mp hx
    exact hbelow c (List.mem_of_getElem? hc) is x hx

theorem namesTo_nil {place : List ℕ} (h : namesTo m n place = some []) : place = [] := by
  cases place with
  | nil => rfl
  | cons i is =>
    rw [namesTo] at h
    simp [Option.bind_eq_some_iff] at h

theorem namesTo_cons {place : List ℕ} {s : List UInt8} (h : namesTo m n place = some (s :: names)) :
    ∃ i is c, place = i :: is ∧ n.children[i]? = some c ∧ cstr m c.name = some s ∧
      namesTo m c is = some names := by
  cases place with
  | nil => simp [namesTo] at h
  | cons i is =>
    rw [namesTo] at h
    obtain ⟨c, hc, h⟩ := Option.bind_eq_some_iff.mp h
    obtain ⟨t, ht, h⟩ := Option.bind_eq_some_iff.mp h
    obtain ⟨rest, hrest, h⟩ := Option.bind_eq_some_iff.mp h
    obtain ⟨rfl, rfl⟩ := List.cons.inj (Option.some.inj h)
    exact ⟨i, is, c, rfl, hc, ht, hrest⟩

/-- A round of the loop goes to the right child, and on from there, exactly when no earlier
sibling captures its name. -/
theorem findLoop_child {fuel i : ℕ} {is : List ℕ} {c : DtbNode} {s tail : List UInt8}
    (h : SiblingNames m n.children names) (hc : n.children[i]? = some c)
    (hs : cstr m c.name = some s) (htail : tail = [] ∨ ∃ p, tail = slash :: p)
    (ih : findLoop m fuel c tail.tail = some (some is) ↔ Uncaptured m c is) :
    findLoop m (fuel + 1) n (s ++ tail) = some (some (i :: is)) ↔ Uncaptured m n (i :: is) := by
  have hi : names[i]? = some s := h.name_iff.mpr ⟨c, hc, hs⟩
  have hmem : s ∈ names := List.mem_of_getElem? hi
  have hfree : (∀ j < i, ∀ e c s t, n.children[j]? = some e → n.children[i]? = some c →
      cstr m e.name = some s → cstr m c.name = some t → ¬Captures s t) ↔
      findInChildren m (s ++ tail) s.length n.children = some (some i) := by
    rw [h.find_iff hi]
    constructor
    · intro hno j hj t ht
      obtain ⟨e, he, het⟩ := h.name_iff.mp ht
      exact hno j hj e c t s he hc het hs
    · intro hno j hj e c' t s' he hc' het hs'
      obtain rfl := Option.some.inj (hc.symm.trans hc')
      obtain rfl := Option.some.inj (hs.symm.trans hs')
      exact hno j hj t (h.name_iff.mpr ⟨e, he, het⟩)
  have hunc : Uncaptured m n (i :: is) ↔
      findInChildren m (s ++ tail) s.length n.children = some (some i) ∧ Uncaptured m c is := by
    rw [Uncaptured, hfree, hc]
    exact and_congr_right fun _ => ⟨fun hall => hall c rfl, fun hu c' hc' =>
      Option.some.inj hc' ▸ hu⟩
  rw [hunc, findLoop_segment (h.nonempty s hmem) (h.noSlash s hmem) htail, ← ih]
  cases findInChildren m (s ++ tail) s.length n.children with
  | none => simp
  | some found =>
    cases found with
    | none => simp
    | some j =>
      by_cases hj : j = i
      · subst hj
        simp [hc]
      · have hne : ¬some (some j) = some (some i) := by simp [hj]
        cases hcj : n.children[j]? with
        | none => simp [hne, hcj]
        | some c' => simp [hne, hcj, hj]

/-- The loop finds the node exactly when nothing on the way down is captured. -/
theorem findLoop_iff {path : List UInt8} (hj : Joins names path) :
    ∀ {n : DtbNode} {place : List ℕ} {fuel : ℕ}, ProperNames m n →
      namesTo m n place = some names → path.length < fuel →
      (findLoop m fuel n path = some (some place) ↔ Uncaptured m n place) := by
  induction hj with
  | stop =>
    intro n place fuel _ hnames hfuel
    obtain ⟨k, rfl⟩ := Nat.exists_eq_add_of_lt hfuel
    rw [namesTo_nil hnames]
    exact iff_of_true rfl trivial
  | @slash names path _ ih =>
    intro n place fuel hproper hnames hfuel
    obtain ⟨k, rfl⟩ : ∃ k, fuel = k + 1 := ⟨fuel - 1, by omega⟩
    have hround : findLoop m (k + 1) n (slash :: path) = findLoop m k n path := by
      conv_lhs => unfold findLoop
      simp
    rw [hround]
    exact ih hproper hnames (by simpa using hfuel)
  | last s =>
    intro n place fuel hproper hnames hfuel
    obtain ⟨i, is, c, rfl, hc, hs, hrest⟩ := namesTo_cons hnames
    obtain ⟨k, rfl⟩ : ∃ k, fuel = k + 1 := ⟨fuel - 1, by omega⟩
    obtain ⟨nm, hsib⟩ := hproper [] n rfl
    have hne : s ≠ [] := hsib.nonempty s (List.mem_of_getElem? (hsib.name_iff.mpr ⟨c, hc, hs⟩))
    have hlen := List.length_pos_iff.mpr hne
    obtain ⟨k', rfl⟩ : ∃ k', k = k' + 1 := ⟨k - 1, by omega⟩
    have hstop : findLoop m (k' + 1) c [] = some (some is) ↔ Uncaptured m c is := by
      rw [namesTo_nil hrest]
      exact iff_of_true rfl trivial
    have hend := findLoop_child hsib hc hs (.inl rfl) hstop
    rwa [List.append_nil] at hend
  | @name s names path _ ih =>
    intro n place fuel hproper hnames hfuel
    obtain ⟨i, is, c, rfl, hc, hs, hrest⟩ := namesTo_cons hnames
    obtain ⟨k, rfl⟩ : ∃ k, fuel = k + 1 := ⟨fuel - 1, by omega⟩
    obtain ⟨nm, hsib⟩ := hproper [] n rfl
    apply findLoop_child hsib hc hs (.inr ⟨path, rfl⟩)
    apply ih (hproper.child hc) hrest
    rw [List.length_append, List.length_cons] at hfuel
    omega

/-- In a tree with proper names, a path that joins the names down to a node leads to that node
exactly when on the way no earlier sibling captures a name. -/
theorem dtb_find_node_iff {root : DtbNode} (hroot : ProperNames m root) {place : List ℕ}
    (hnames : namesTo m root place = some names) {path : List UInt8} (hpath : Joins names path) :
    dtbFindNode m root (slash :: path) = some (some place) ↔ Uncaptured m root place := by
  unfold dtbFindNode
  dsimp only
  rw [if_pos rfl]
  exact findLoop_iff hpath hroot hnames (Nat.lt_succ_self _)

end Search

/-- A blob whose root has the children `foo@1` and `foo`. -/
def twoFoosBlob : List UInt8 := [
  208, 13, 254, 237, 0, 0, 0, 84, 0, 0, 0, 40, 0, 0, 0, 84, 0, 0, 0, 40,
  0, 0, 0, 17, 0, 0, 0, 16, 0, 0, 0, 0, 0, 0, 0, 0, 0, 0, 0, 44,
  0, 0, 0, 1, 0, 0, 0, 0, 0, 0, 0, 1, 102, 111, 111, 64, 49, 0, 0, 0, 0, 0, 0, 2,
  0, 0, 0, 1, 102, 111, 111, 0, 0, 0, 0, 2, 0, 0, 0, 2, 0, 0, 0, 9]

/-- The tree of the blob. -/
def twoFoos : DtbNode :=
  ⟨108, 0, 0, [], 0, 2, 1, [⟨116, 1, 0, [], 0, 2, 1, []⟩, ⟨132, 2, 0, [], 0, 2, 1, []⟩]⟩

theorem twoFoos_names : ProperNames (blobAt 64 twoFoosBlob) twoFoos := by
  have hroot : SiblingNames (blobAt 64 twoFoosBlob) twoFoos.children
      [[102, 111, 111, 64, 49], [102, 111, 111]] :=
    ⟨by decide +kernel, by decide, by decide, by decide⟩
  apply ProperNames.node hroot
  intro c hc
  have hleaf : c.children = [] := by
    revert c
    decide
  have hnone : SiblingNames (blobAt 64 twoFoosBlob) c.children [] := by
    rw [hleaf]
    exact ⟨rfl, by simp, by simp, List.nodup_nil⟩
  apply ProperNames.node hnone
  simp [hleaf]

/-- `//foo@1/` leads to the first child. -/
theorem dtb_find_node_first : dtbFindNode (blobAt 64 twoFoosBlob) twoFoos
    [slash, slash, 102, 111, 111, 64, 49, slash] = some (some [0]) := by
  have hpath : Joins [[102, 111, 111, 64, 49]] [slash, 102, 111, 111, 64, 49, slash] :=
    .slash (.name [102, 111, 111, 64, 49] .stop)
  apply (dtb_find_node_iff twoFoos_names (by decide +kernel) hpath).mpr
  exact ⟨fun j hj => absurd hj (Nat.not_lt_zero j), fun _ _ => trivial⟩

/-- `/foo` leads to `foo@1`, which comes first, not to `foo`. -/
theorem dtb_find_node_captured :
    dtbParse (blobAt 64 twoFoosBlob) 30 64 84 4096 8192 = .ok (.ok ⟨twoFoos, [], 0, 0⟩, ⟨3, 0⟩) ∧
    ProperNames (blobAt 64 twoFoosBlob) twoFoos ∧
    namesTo (blobAt 64 twoFoosBlob) twoFoos [1] = some [[102, 111, 111]] ∧
    Joins [[102, 111, 111]] [102, 111, 111] ∧
    dtbFindNode (blobAt 64 twoFoosBlob) twoFoos [slash, 102, 111, 111] ≠ some (some [1]) :=
  ⟨by decide +kernel, twoFoos_names, by decide +kernel, .last _, by decide +kernel⟩

end Leg

import CodeGraph.SyntaxTree.Basic
import Mathlib.Data.List.Nodup

/-!
# Regular syntax trees

A syntax tree is sound if its keys are numbered in pre-order, each node has its children and no
others under its structural entry, there is one entry for each relation, and all targets are nodes
of the tree. It is regular if besides the targets of types are simple names. A link that keeps to
what is said of targets keeps a tree sound (`Sound.link`) or regular (`Regular.link`), unless it is
structural.
-/

namespace CodeGraph.SyntaxTree

/-- Whether there is an entry with a relation to a target. -/
def Linked (links : List (Relation × List Nat)) (relation : Relation) (target : Nat) : Prop :=
  ∃ targets, (relation, targets) ∈ links ∧ target ∈ targets

/-- The targets of the first entry of a relation. -/
def targets (links : List (Relation × List Nat)) (relation : Relation) : List Nat :=
  ((links.find? (·.1 == relation)).map (·.2)).getD []

theorem countP_relation_le_one {links : List (Relation × List Nat)}
    (h : (links.map (·.1)).Nodup) (relation : Relation) :
    links.countP (·.1 == relation) ≤ 1 := by
  have hcount := List.nodup_iff_count_le_one.1 h relation
  rwa [List.count, List.countP_map] at hcount

/-! ## More links -/

section insertLink

variable {relation : Relation} {target : Nat} {links : List (Relation × List Nat)}

theorem linked_insertLink {r : Relation} {j : Nat}
    (h : Linked (insertLink relation target links) r j) :
    Linked links r j ∨ (r = relation ∧ j = target) := by
  obtain ⟨ts, he, hj⟩ := h
  induction links with
  | nil =>
    cases List.mem_singleton.1 he
    exact .inr ⟨rfl, List.mem_singleton.1 hj⟩
  | cons entry rest ih =>
    obtain ⟨other, found⟩ := entry
    rw [insertLink] at he
    split at he
    · next heq =>
      rcases List.mem_cons.1 he with he | he
      · cases he
        split at hj
        · exact .inl ⟨found, List.mem_cons_self, hj⟩
        · rcases List.mem_append.1 hj with hj | hj
          · exact .inl ⟨found, List.mem_cons_self, hj⟩
          · exact .inr ⟨heq, List.mem_singleton.1 hj⟩
      · exact .inl ⟨ts, List.mem_cons_of_mem _ he, hj⟩
    · rcases List.mem_cons.1 he with he | he
      · cases he
        exact .inl ⟨_, List.mem_cons_self, hj⟩
      · rcases ih he with ⟨us, hus, hj⟩ | hnew
        · exact .inl ⟨us, List.mem_cons_of_mem _ hus, hj⟩
        · exact .inr hnew

theorem find?_insertLink {r : Relation} (h : relation ≠ r) :
    (insertLink relation target links).find? (·.1 == r) = links.find? (·.1 == r) := by
  induction links with
  | nil => simp [insertLink, h]
  | cons entry rest ih =>
    obtain ⟨other, found⟩ := entry
    rw [insertLink]
    split
    · next heq =>
      subst heq
      simp [h]
    · rw [List.find?_cons, List.find?_cons, ih]

theorem targets_insertLink_of_ne {r : Relation} (h : relation ≠ r) :
    targets (insertLink relation target links) r = targets links r := by
  rw [targets, find?_insertLink h, targets]

theorem map_fst_insertLink (relation : Relation) (target : Nat)
    (links : List (Relation × List Nat)) :
    (insertLink relation target links).map (·.1) =
      if relation ∈ links.map (·.1) then links.map (·.1) else links.map (·.1) ++ [relation] := by
  induction links with
  | nil => rfl
  | cons entry rest ih =>
    obtain ⟨other, found⟩ := entry
    rw [insertLink]
    by_cases heq : other = relation
    · rw [if_pos heq]
      simp [heq]
    · rw [if_neg heq, List.map_cons, ih]
      simp only [List.map_cons, List.mem_cons, Ne.symm heq, false_or]
      split <;> rfl

theorem nodup_insertLink (h : (links.map (·.1)).Nodup) :
    ((insertLink relation target links).map (·.1)).Nodup := by
  rw [map_fst_insertLink]
  split
  · exact h
  · next hnew =>
    rw [← List.concat_eq_append]
    exact h.concat hnew

end insertLink

/-! ## Sound and regular trees -/

/-- The recorded parent of a key. -/
def parentKey? (t : SyntaxTree) (k : Nat) : Option Nat := t.nodes[k]?.bind (·.parent)

theorem lt_size_of_parentKey? {t : SyntaxTree} {k p : Nat} (h : t.parentKey? k = some p) :
    k < t.size := by
  obtain ⟨x, hx, -⟩ := Option.bind_eq_some_iff.1 h
  exact (Array.getElem?_eq_some_iff.1 hx).1

/-- The keys with a certain parent. -/
def keysBelow (t : SyntaxTree) (k : Nat) : List Nat :=
  (List.range t.size).filter (t.parentKey? · == some k)

theorem mem_keysBelow_iff {t : SyntaxTree} {k p : Nat} :
    k ∈ t.keysBelow p ↔ t.parentKey? k = some p := by
  rw [keysBelow, List.mem_filter, List.mem_range, beq_iff_eq]
  exact ⟨And.right, fun hk => ⟨lt_size_of_parentKey? hk, hk⟩⟩

theorem pairwise_keysBelow (t : SyntaxTree) (p : Nat) : (t.keysBelow p).Pairwise (· < ·) :=
  List.pairwise_lt_range.filter _

/-- What makes a syntax tree sound. -/
structure Sound (t : SyntaxTree) : Prop where
  nonempty : 0 < t.size
  small : t.size ≤ UInt32.size
  root : t.rootKey = some 0
  top : t.parentKey? 0 = none
  parents : ∀ k, 0 < k → k < t.size → ∃ p < k, t.parentKey? k = some p
  noReturn : ∀ k l m p, k < l → l < m → t.parentKey? l = some p → p < k →
    t.parentKey? m ≠ some k
  children : ∀ (k : Nat) (x : Node), t.nodes[k]? = some x →
    targets x.links .structural = t.keysBelow k
  oneEntry : ∀ (k : Nat) (x : Node), t.nodes[k]? = some x → (x.links.map (·.1)).Nodup
  inRange : ∀ (k : Nat) (x : Node), t.nodes[k]? = some x → ∀ relation target,
    Linked x.links relation target → target < t.size

/-- What makes a syntax tree regular. -/
structure Regular (t : SyntaxTree) : Prop extends Sound t where
  typed : ∀ (k : Nat) (x : Node), t.nodes[k]? = some x → ∀ target, Linked x.links .type target →
    ∃ y : Node, t.nodes[target]? = some y ∧ y.data.simple = true

/-! ## A link -/

variable {t : SyntaxTree}

theorem getElem?_link (t : SyntaxTree) (source : Nat) (relation : Relation) (target k : Nat) :
    (t.link source relation target).nodes[k]? =
      if source = k then
        t.nodes[k]?.map fun x => { x with links := insertLink relation target x.links }
      else t.nodes[k]? :=
  Array.getElem?_modify

theorem node_of_link {source target k : Nat} {relation : Relation} {y : Node}
    (h : (t.link source relation target).nodes[k]? = some y) :
    ∃ x, t.nodes[k]? = some x ∧ y.data = x.data ∧
      (y.links = x.links ∨ y.links = insertLink relation target x.links) := by
  rw [getElem?_link] at h
  split at h
  · obtain ⟨x, hx, rfl⟩ := Option.map_eq_some_iff.1 h
    exact ⟨x, hx, rfl, .inr rfl⟩
  · exact ⟨y, h, rfl, .inl rfl⟩

theorem size_link (t : SyntaxTree) (source : Nat) (relation : Relation) (target : Nat) :
    (t.link source relation target).size = t.size :=
  Array.size_modify

theorem parentKey?_link (t : SyntaxTree) (source : Nat) (relation : Relation) (target k : Nat) :
    (t.link source relation target).parentKey? k = t.parentKey? k := by
  rw [parentKey?, getElem?_link]
  split
  · cases h : t.nodes[k]? <;> simp [parentKey?, h]
  · rfl

theorem keysBelow_link (t : SyntaxTree) (source : Nat) (relation : Relation) (target k : Nat) :
    (t.link source relation target).keysBelow k = t.keysBelow k := by
  simp only [keysBelow, size_link, parentKey?_link]

theorem exists_node_link {source target k : Nat} {relation : Relation} {x : Node}
    (h : t.nodes[k]? = some x) :
    ∃ y, (t.link source relation target).nodes[k]? = some y ∧ y.data = x.data := by
  rw [getElem?_link]
  split
  · exact ⟨{ x with links := insertLink relation target x.links }, by rw [h]; rfl, rfl⟩
  · exact ⟨x, h, rfl⟩

theorem linked_of_link {source target k j : Nat} {relation r : Relation} {y : Node}
    (hy : (t.link source relation target).nodes[k]? = some y) (hj : Linked y.links r j) :
    (∃ x : Node, t.nodes[k]? = some x ∧ Linked x.links r j) ∨ (r = relation ∧ j = target) := by
  obtain ⟨x, hx, -, hlinks | hlinks⟩ := node_of_link hy
  · exact .inl ⟨x, hx, hlinks ▸ hj⟩
  · rw [hlinks] at hj
    exact (linked_insertLink hj).imp (fun hj => ⟨x, hx, hj⟩) id

section link

variable {source target : Nat} {relation : Relation}

theorem Sound.link (h : t.Sound) (hrel : relation ≠ .structural) (htarget : target < t.size) :
    (t.link source relation target).Sound := by
  -- Size, root and parents are as before; only the last three fields look at links.
  constructor
  case nonempty => exact (size_link ..).symm ▸ h.nonempty
  case small => exact (size_link ..).symm ▸ h.small
  case root => exact h.root
  case top => rw [parentKey?_link, h.top]
  case parents =>
    intro k hpos hk
    rw [size_link] at hk
    rw [parentKey?_link]
    exact h.parents k hpos hk
  case noReturn =>
    intro k l m p
    rw [parentKey?_link, parentKey?_link]
    exact h.noReturn k l m p
  case children =>
    intro k y hy
    obtain ⟨x, hx, -, hlinks | hlinks⟩ := node_of_link hy
    · rw [hlinks, keysBelow_link, h.children k x hx]
    · rw [hlinks, keysBelow_link, ← h.children k x hx, targets_insertLink_of_ne hrel]
  case oneEntry =>
    intro k y hy
    obtain ⟨x, hx, -, hlinks | hlinks⟩ := node_of_link hy
    · rw [hlinks]
      exact h.oneEntry k x hx
    · rw [hlinks]
      exact nodup_insertLink (h.oneEntry k x hx)
  case inRange =>
    intro k y hy r j hj
    rw [size_link]
    rcases linked_of_link hy hj with ⟨x, hx, hj⟩ | ⟨-, rfl⟩
    · exact h.inRange k x hx r j hj
    · exact htarget

theorem Regular.link (h : t.Regular) (hrel : relation ≠ .structural) (htarget : target < t.size)
    (htype : relation = .type → ∃ y : Node, t.nodes[target]? = some y ∧ y.data.simple = true) :
    (t.link source relation target).Regular := by
  refine ⟨h.toSound.link hrel htarget, fun k y hy j hj => ?_⟩
  obtain ⟨z, hz, hsimple⟩ : ∃ z : Node, t.nodes[j]? = some z ∧ z.data.simple = true := by
    rcases linked_of_link hy hj with ⟨x, hx, hj⟩ | ⟨heq, rfl⟩
    · exact h.typed k x hx j hj
    · exact htype heq.symm
  obtain ⟨w, hw, hdata⟩ := exists_node_link hz
  exact ⟨w, hw, hdata ▸ hsimple⟩

end link

end CodeGraph.SyntaxTree

import CodeGraph.Proofs.Lists
import CodeGraph.Proofs.SyntaxTree.Shape
import CodeGraph.Proofs.SyntaxTree.Targets

/-!
# Syntax trees under edits

Nodes are added to a syntax tree, and children and links; its root and its path are set. If an edit
only names nodes that are there, it does not fail, and the tree has what the edits say: a node holds
the links that were made from it, put together by relation (`groupLinks`), and its parent is the one
that it was given first. Every edit keeps this (`MadeBy.apply`).
-/

namespace CodeGraph.SyntaxTree

open Attempt

/-! ## Links put together by relation -/

/-- The targets under a relation, in the order in which they came first. -/
def madeTargets (made : List (Relation × Nat)) (relation : Relation) : List Nat :=
  ((made.filter (·.1 == relation)).map (·.2)).eraseDups

/-- Links as a node holds them that were made in a certain order. The relations are in the order in
which they came first. -/
def groupLinks (made : List (Relation × Nat)) : List (Relation × List Nat) :=
  (made.map (·.1)).eraseDups.map fun r => (r, madeTargets made r)

theorem madeTargets_concat (made : List (Relation × Nat)) (relation r : Relation) (target : Nat) :
    madeTargets (made ++ [(r, target)]) relation =
      if r = relation then addTarget (madeTargets made relation) target
      else madeTargets made relation := by
  rw [madeTargets, List.filter_append, List.filter_singleton, madeTargets]
  by_cases h : r = relation
  · have hcontains : ∀ xs : List Nat, xs.eraseDups.contains target = xs.contains target := by
      intro xs
      simp
    simp only [h, beq_self_eq_true, cond_true, List.map_append, List.map_singleton, if_true,
      Lists.eraseDups_concat, addTarget, hcontains]
  · have hother : (r == relation) = false := by simpa using h
    simp [h, hother]

theorem mem_madeTargets {made : List (Relation × Nat)} {relation : Relation} {target : Nat} :
    target ∈ madeTargets made relation ↔ (relation, target) ∈ made := by
  simp [madeTargets]

theorem madeTargets_eq_nil {made : List (Relation × Nat)} {relation : Relation}
    (h : relation ∉ made.map (·.1)) : madeTargets made relation = [] := by
  rw [List.eq_nil_iff_forall_not_mem]
  intro target htarget
  exact h (List.mem_map_of_mem (mem_madeTargets.1 htarget))

theorem insertLink_of_not_mem {links : List (Relation × List Nat)} {relation : Relation}
    (h : relation ∉ links.map (·.1)) (target : Nat) :
    insertLink relation target links = links ++ [(relation, [target])] := by
  induction links with
  | nil => rfl
  | cons entry rest ih =>
    simp only [List.map_cons, List.mem_cons, not_or] at h
    rw [insertLink, if_neg (Ne.symm h.1), ih h.2, List.cons_append]

theorem insertLink_of_mem {links : List (Relation × List Nat)} {relation : Relation}
    (hnodup : (links.map (·.1)).Nodup) (h : relation ∈ links.map (·.1)) (target : Nat) :
    insertLink relation target links =
      links.map fun e => (e.1, if relation = e.1 then addTarget e.2 target else e.2) := by
  induction links with
  | nil => cases h
  | cons entry rest ih =>
    rw [List.map_cons, List.nodup_cons] at hnodup
    rw [insertLink, List.map_cons]
    by_cases heq : entry.1 = relation
    · have hrest : ∀ e ∈ rest, relation ≠ e.1 := fun e he hsame =>
        hnodup.1 (heq.trans hsame ▸ List.mem_map_of_mem he)
      have hkept : rest.map (fun e => (e.1, if relation = e.1 then addTarget e.2 target else e.2)) =
          rest := by
        rw [List.map_congr_left fun e he => by rw [if_neg (hrest e he)]]
        simp
      rw [if_pos heq, if_pos heq.symm, hkept]
      rfl
    · have hmem : relation ∈ rest.map (·.1) :=
        (List.mem_cons.1 h).resolve_left (Ne.symm heq)
      rw [if_neg heq, if_neg (Ne.symm heq), ih hnodup.2 hmem]

theorem map_fst_groupLinks (made : List (Relation × Nat)) :
    (groupLinks made).map (·.1) = (made.map (·.1)).eraseDups := by
  simp [groupLinks, Function.comp_def]

theorem groupLinks_concat (made : List (Relation × Nat)) (relation : Relation) (target : Nat) :
    groupLinks (made ++ [(relation, target)]) = insertLink relation target (groupLinks made) := by
  have hkeys := map_fst_groupLinks made
  have hnodup : ((groupLinks made).map (·.1)).Nodup := hkeys ▸ Lists.nodup_eraseDups _
  rw [groupLinks, List.map_append, List.map_singleton, Lists.eraseDups_concat]
  by_cases h : relation ∈ made.map (·.1)
  · rw [if_pos (List.contains_iff_mem.2 h),
      insertLink_of_mem hnodup (by rw [hkeys]; simpa using h), groupLinks, List.map_map]
    refine List.map_congr_left fun r _ => ?_
    rw [madeTargets_concat]
    rfl
  · rw [if_neg (by simpa using h), insertLink_of_not_mem (by rw [hkeys]; simpa using h),
      List.map_append, List.map_singleton, madeTargets_concat, if_pos rfl, madeTargets_eq_nil h,
      groupLinks]
    congr 1
    refine List.map_congr_left fun r hr => ?_
    have hne : relation ≠ r := fun heq => h (heq ▸ List.mem_eraseDups.1 hr)
    rw [madeTargets_concat, if_neg hne]

theorem targets_groupLinks (made : List (Relation × Nat)) (relation : Relation) :
    targets (groupLinks made) relation = madeTargets made relation := by
  have hfind : (fun e : Relation × List Nat => e.1 == relation) ∘
      (fun r => (r, madeTargets made r)) = (· == relation) := rfl
  rw [targets, groupLinks, List.find?_map, hfind]
  cases hfound : (made.map (·.1)).eraseDups.find? (· == relation) with
  | none =>
    have hnone : relation ∉ made.map (·.1) := fun hmem =>
      List.find?_eq_none.1 hfound relation (List.mem_eraseDups.2 hmem) (beq_self_eq_true relation)
    rw [madeTargets_eq_nil hnone]
    rfl
  | some r =>
    obtain rfl : r = relation := by simpa using List.find?_some hfound
    rfl

/-! ## Edits -/

/-- One call that changes a syntax tree. -/
inductive Edit
  | addNode (data : NodeData)
  | addChild (parent child : Nat)
  | link (source : Nat) (relation : Relation) (target : Nat)
  | setRoot (key : Nat)
  | setSourcePath (path : String)

namespace Edit

def apply (t : SyntaxTree) : Edit → SyntaxTree
  | addNode data => t.addNode data
  | addChild parent child => t.addChild parent child
  | link source relation target => t.link source relation target
  | setRoot key => t.setRoot key
  | setSourcePath path => t.setSourcePath path

/-- Why the call fails on a tree, if it does. -/
def fault? (t : SyntaxTree) : Edit → Option Fault
  | addChild parent child => t.addChildFault? parent child
  | link source _ _ => t.linkFault? source
  | _ => none

/-- The keys that are passed. -/
def keys : Edit → List Nat
  | addChild parent child => [parent, child]
  | link source _ target => [source, target]
  | setRoot key => [key]
  | _ => []

/-- The link that is made from a node. -/
def linkFrom? (k : Nat) : Edit → Option (Relation × Nat)
  | addChild parent child => if parent = k then some (.structural, child) else none
  | link source relation target => if source = k then some (relation, target) else none
  | _ => none

/-- The parent that a node is given. -/
def parentOf? (k : Nat) : Edit → Option Nat
  | addChild parent child => if child = k then some parent else none
  | _ => none

/-- What becomes of the node with a key. A parent that it has stays. -/
def change (e : Edit) (k : Nat) (x : Node) : Node :=
  { x with
    parent := x.parent.or (e.parentOf? k)
    links := (e.linkFrom? k).elim x.links fun l => insertLink l.1 l.2 x.links }

variable {t : SyntaxTree} {e : Edit} {k : Nat}

theorem fault?_eq_none (h : ∀ key ∈ e.keys, key < t.size) : e.fault? t = none := by
  cases e with
  | addChild parent child =>
    simp only [keys, List.forall_mem_cons] at h
    simp [fault?, addChildFault?, linkFault?, h.1, h.2.1]
  | link source relation target =>
    simp only [keys, List.forall_mem_cons] at h
    simp [fault?, linkFault?, h.1]
  | _ => rfl

theorem linkFrom?_eq_none (h : k ∉ e.keys) : e.linkFrom? k = none := by
  cases e with
  | addChild parent child => exact if_neg fun heq => h (by simp [keys, heq])
  | link source relation target => exact if_neg fun heq => h (by simp [keys, heq])
  | _ => rfl

theorem parentOf?_eq_none (h : k ∉ e.keys) : e.parentOf? k = none := by
  cases e with
  | addChild parent child => exact if_neg fun heq => h (by simp [keys, heq])
  | _ => rfl

theorem size_apply (t : SyntaxTree) (e : Edit) :
    (e.apply t).size = t.size ∨ (e.apply t).size = t.size + 1 ∧
      ∃ data, (e.apply t).nodes[t.size]? = some ⟨data, none, []⟩ := by
  cases e with
  | addNode data =>
    refine .inr ⟨Array.size_push _, data, ?_⟩
    rw [apply, getElem?_addNode, if_pos rfl]
  | addChild parent child =>
    refine .inl ?_
    rw [apply, SyntaxTree.addChild]
    split
    · rw [size, adopt, Array.size_modify]
      exact size_link ..
    · rfl
  | link source relation target => exact .inl (size_link ..)
  | setRoot key => exact .inl rfl
  | setSourcePath path => exact .inl rfl

theorem getElem?_apply (h : ∀ key ∈ e.keys, key < t.size) {x : Node} (hx : t.nodes[k]? = some x) :
    (e.apply t).nodes[k]? = some (e.change k x) := by
  cases e with
  | addNode data =>
    have hk : k < t.size := (Array.getElem?_eq_some_iff.1 hx).1
    rw [apply, getElem?_addNode, if_neg (Nat.ne_of_lt hk), hx]
    simp [change, linkFrom?, parentOf?]
  | addChild parent child =>
    have hparent : parent < t.size := h parent (by simp [keys])
    rw [apply, SyntaxTree.addChild, if_pos hparent, adopt, Array.getElem?_modify, getElem?_link, hx]
    by_cases hchild : child = k <;> by_cases hsource : parent = k <;>
      simp [change, linkFrom?, parentOf?, hchild, hsource]
  | link source relation target =>
    rw [apply, getElem?_link, hx]
    by_cases hsource : source = k <;> simp [change, linkFrom?, parentOf?, hsource]
  | setRoot key =>
    rw [apply, SyntaxTree.setRoot, hx]
    simp [change, linkFrom?, parentOf?]
  | setSourcePath path =>
    rw [apply, SyntaxTree.setSourcePath, hx]
    simp [change, linkFrom?, parentOf?]

theorem of_getElem?_apply (h : ∀ key ∈ e.keys, key < t.size) {y : Node}
    (hy : (e.apply t).nodes[k]? = some y) :
    (∃ x, t.nodes[k]? = some x ∧ y = e.change k x) ∨
      k = t.size ∧ ∃ data, y = ⟨data, none, []⟩ := by
  have hlt : k < (e.apply t).size := (Array.getElem?_eq_some_iff.1 hy).1
  by_cases hk : k < t.size
  · have hx : t.nodes[k]? = some t.nodes[k] := Array.getElem?_eq_getElem hk
    rw [getElem?_apply h hx] at hy
    exact .inl ⟨_, hx, (Option.some.inj hy).symm⟩
  · rcases size_apply t e with hsize | ⟨hsize, data, hdata⟩
    · omega
    · obtain rfl : k = t.size := by omega
      rw [hdata] at hy
      exact .inr ⟨rfl, data, (Option.some.inj hy).symm⟩

theorem mem_keys_of_linkFrom? {l : Relation × Nat} (h : e.linkFrom? k = some l) :
    l.2 ∈ e.keys := by
  cases e with
  | addChild parent child =>
    rw [linkFrom?, Option.ite_none_right_eq_some] at h
    obtain ⟨-, h⟩ := h
    cases h
    simp [keys]
  | link source relation target =>
    rw [linkFrom?, Option.ite_none_right_eq_some] at h
    obtain ⟨-, h⟩ := h
    cases h
    simp [keys]
  | _ => cases h

theorem parentOf?_eq_some_iff {p : Nat} : e.parentOf? k = some p ↔ e = addChild p k := by
  cases e with
  | addChild parent child => simp [parentOf?, and_comm]
  | _ => simp [parentOf?]

theorem rootKey_apply {key : Nat} (h : (e.apply t).rootKey = some key) :
    t.rootKey = some key ∨ key ∈ e.keys ∨ key = t.size ∧ (e.apply t).size = t.size + 1 := by
  cases e with
  | addNode data =>
    rw [apply, SyntaxTree.addNode] at h
    cases hroot : t.rootKey with
    | none =>
      rw [hroot] at h
      exact .inr (.inr ⟨(Option.some.inj h).symm, Array.size_push _⟩)
    | some old =>
      rw [hroot] at h
      exact .inl h
  | addChild parent child =>
    rw [apply, SyntaxTree.addChild] at h
    split at h <;> exact .inl h
  | link source relation target => exact .inl h
  | setRoot k => exact .inr (.inl (List.mem_singleton.2 (Option.some.inj h).symm))
  | setSourcePath path => exact .inl h

end Edit

/-! ## What edits make -/

/-- The links made from a node, in order. -/
def linksFrom (edits : List Edit) (k : Nat) : List (Relation × Nat) :=
  edits.filterMap (·.linkFrom? k)

/-- The first parent that a node was given. -/
def firstParent? (edits : List Edit) (k : Nat) : Option Nat := edits.findSome? (·.parentOf? k)

/-- What a tree has after edits that named nodes which were there. -/
structure MadeBy (t : SyntaxTree) (edits : List Edit) : Prop where
  keys : ∀ e ∈ edits, ∀ key ∈ e.keys, key < t.size
  root : ∀ key, t.rootKey = some key → key < t.size
  links : ∀ (k : Nat) (x : Node), t.nodes[k]? = some x → x.links = groupLinks (linksFrom edits k)
  parents : ∀ k < t.size, t.parentKey? k = firstParent? edits k

variable {t : SyntaxTree} {edits : List Edit} {e : Edit} {k : Nat}

theorem madeBy_empty (number : UInt32) : (empty number).MadeBy [] where
  keys _ h := absurd h List.not_mem_nil
  root _ h := by cases h
  links _ _ h := by cases h
  parents _ h := absurd h (Nat.not_lt_zero _)

/-- One more edit, of nodes that are there. -/
theorem MadeBy.apply (h : t.MadeBy edits) (he : ∀ key ∈ e.keys, key < t.size) :
    (e.apply t).MadeBy (edits ++ [e]) := by
  have hle : t.size ≤ (e.apply t).size := by
    rcases e.size_apply t with hsize | ⟨hsize, -⟩ <;> omega
  -- No edit before names a node that is new.
  have hnew : ∀ f ∈ edits ++ [e], t.size ∉ f.keys := by
    intro f hf hmem
    rcases List.mem_append.1 hf with hf | hf
    · exact Nat.lt_irrefl _ (h.keys f hf _ hmem)
    · exact Nat.lt_irrefl _ (he _ (List.mem_singleton.1 hf ▸ hmem))
  constructor
  case keys =>
    intro f hf key hkey
    rcases List.mem_append.1 hf with hf | hf
    · exact Nat.lt_of_lt_of_le (h.keys f hf key hkey) hle
    · exact Nat.lt_of_lt_of_le (he key (List.mem_singleton.1 hf ▸ hkey)) hle
  case root =>
    intro key hkey
    rcases Edit.rootKey_apply hkey with hkey | hkey | ⟨rfl, hsize⟩
    · exact Nat.lt_of_lt_of_le (h.root key hkey) hle
    · exact Nat.lt_of_lt_of_le (he key hkey) hle
    · omega
  case links =>
    intro k y hy
    rcases Edit.of_getElem?_apply he hy with ⟨x, hx, rfl⟩ | ⟨rfl, data, rfl⟩
    · rw [linksFrom, List.filterMap_append, ← linksFrom, Edit.change, h.links k x hx]
      cases hlink : e.linkFrom? k with
      | none => simp [hlink]
      | some l => simp [hlink, ← groupLinks_concat]
    · rw [linksFrom, List.filterMap_eq_nil_iff.2 fun f hf => Edit.linkFrom?_eq_none (hnew f hf)]
      rfl
  case parents =>
    intro k hk
    have hy : (e.apply t).nodes[k]? = some (e.apply t).nodes[k] := Array.getElem?_eq_getElem hk
    rw [parentKey?, hy, Option.bind_some]
    rcases Edit.of_getElem?_apply he hy with ⟨x, hx, hchange⟩ | ⟨rfl, data, hdata⟩
    · have hparent := h.parents k (Array.getElem?_eq_some_iff.1 hx).1
      rw [parentKey?, hx, Option.bind_some] at hparent
      rw [hchange, Edit.change, hparent, firstParent?, firstParent?, List.findSome?_append,
        List.findSome?_singleton]
    · rw [hdata, firstParent?,
        List.findSome?_eq_none_iff.2 fun f hf => Edit.parentOf?_eq_none (hnew f hf)]

/-! ## What such a tree shows -/

theorem MadeBy.lt_size (h : t.MadeBy edits) {relation : Relation} {target : Nat}
    (hmade : (relation, target) ∈ linksFrom edits k) : target < t.size := by
  obtain ⟨e, he, hlink⟩ := List.mem_filterMap.1 hmade
  exact h.keys e he target (Edit.mem_keys_of_linkFrom? hlink)

theorem MadeBy.links?_eq (h : t.MadeBy edits) (hk : k < t.size) :
    t.links? k = .ok (groupLinks (linksFrom edits k)) := by
  have hx : t.nodes[k]? = some t.nodes[k] := Array.getElem?_eq_getElem hk
  have hlinks := h.links k _ hx
  rw [← hlinks]
  refine SyntaxTree.links?_eq hx fun relation target hlinked => ?_
  rw [hlinks] at hlinked
  obtain ⟨keys, hkeys, htarget⟩ := hlinked
  obtain ⟨r, -, heq⟩ := List.mem_map.1 hkeys
  cases heq
  exact h.lt_size (mem_madeTargets.1 htarget)

theorem MadeBy.related?_eq (h : t.MadeBy edits) (hk : k < t.size) (relation : Relation) :
    t.related? k relation = .ok (madeTargets (linksFrom edits k) relation) := by
  rw [related?, h.links?_eq hk, bind_eq, ok_bind, ← targets_groupLinks, targets]

theorem MadeBy.exists_root (h : t.MadeBy edits) : ∃ root, t.root? = .ok root := by
  rw [root?]
  cases hroot : t.rootKey with
  | none => exact ⟨none, rfl⟩
  | some key =>
    have hname : t.nodeName? key = some ⟨key, h.root key hroot⟩ := nodeName?_eq_some_iff.2 rfl
    exact ⟨some ⟨key, h.root key hroot⟩, by simp only [hname]⟩

theorem MadeBy.of_parentKey? (h : t.MadeBy edits) {p : Nat} (hparent : t.parentKey? k = some p) :
    p < t.size ∧ k ∈ madeTargets (linksFrom edits p) .structural := by
  rw [h.parents k (lt_size_of_parentKey? hparent)] at hparent
  obtain ⟨e, he, hgiven⟩ := List.exists_of_findSome?_eq_some hparent
  obtain rfl := Edit.parentOf?_eq_some_iff.1 hgiven
  refine ⟨h.keys _ he p (by simp [Edit.keys]), mem_madeTargets.2 (List.mem_filterMap.2 ?_)⟩
  exact ⟨_, he, if_pos rfl⟩

end CodeGraph.SyntaxTree

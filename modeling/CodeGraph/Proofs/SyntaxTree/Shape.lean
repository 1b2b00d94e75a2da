import CodeGraph.Proofs.SyntaxTree.Regular

/-!
# Syntax trees that grow node by node

A tree to which each node was added below an earlier one, and to which nothing else was done, holds
at each node the keys below it and no other links (`Shaped.addBelow`).
-/

namespace CodeGraph.SyntaxTree

/-- Adds a node, as the last child of a node that is there already if one is given. -/
def addBelow (t : SyntaxTree) (data : NodeData) : Option Nat → SyntaxTree
  | some parent => (t.addNode data).addChild parent t.size
  | none => t.addNode data

/-- The links of a node with certain children and no other relation. -/
def shapeLinks (keys : List Nat) : List (Relation × List Nat) :=
  if keys = [] then [] else [(.structural, keys)]

/-- Whether the shape of a tree is all that its links show. -/
def Shaped (t : SyntaxTree) : Prop :=
  ∀ (k : Nat) (x : Node), t.nodes[k]? = some x → x.links = shapeLinks (t.keysBelow k)

variable {t : SyntaxTree} {data : NodeData} {parent : Option Nat}

/-! ## One node more -/

theorem getElem?_addNode (t : SyntaxTree) (data : NodeData) (k : Nat) :
    (t.addNode data).nodes[k]? = if k = t.size then some ⟨data, none, []⟩ else t.nodes[k]? :=
  Array.getElem?_push

/-- The new node is the last. Where it is below another, that has a child more. -/
theorem getElem?_addBelow (hparent : ∀ p ∈ parent, p < t.size) (k : Nat) :
    (t.addBelow data parent).nodes[k]? =
      if k = t.size then some ⟨data, parent, []⟩
      else if parent = some k then
        t.nodes[k]?.map fun x => { x with links := insertLink .structural t.size x.links }
      else t.nodes[k]? := by
  cases parent with
  | none =>
    rw [addBelow, getElem?_addNode]
    simp
  | some p =>
    have hlt : p < t.size := hparent p rfl
    have hle : p < (t.addNode data).size := by
      rw [size, addNode, Array.size_push]
      exact Nat.lt_succ_of_lt hlt
    rw [addBelow, addChild, if_pos hle, adopt, Array.getElem?_modify, getElem?_link,
      getElem?_addNode]
    simp only [Option.some.injEq]
    by_cases hk : k = t.size
    · subst hk
      rw [if_pos rfl, if_neg (Nat.ne_of_lt hlt), if_pos rfl, if_pos rfl]
      rfl
    · rw [if_neg (Ne.symm hk), if_neg hk, if_neg hk]

theorem size_addBelow (t : SyntaxTree) (data : NodeData) (parent : Option Nat) :
    (t.addBelow data parent).size = t.size + 1 := by
  cases parent with
  | none => exact Array.size_push _
  | some p =>
    rw [addBelow, addChild]
    split
    · rw [size, adopt, Array.size_modify]
      exact (size_link ..).trans (Array.size_push _)
    · exact Array.size_push _

theorem rootKey_addBelow (t : SyntaxTree) (data : NodeData) (parent : Option Nat) :
    (t.addBelow data parent).rootKey = (t.rootKey <|> some t.size) := by
  cases parent with
  | none => rfl
  | some p =>
    rw [addBelow, addChild]
    split <;> rfl

theorem parentKey?_addBelow (hparent : ∀ p ∈ parent, p < t.size) (k : Nat) :
    (t.addBelow data parent).parentKey? k = if k = t.size then parent else t.parentKey? k := by
  rw [parentKey?, getElem?_addBelow hparent]
  split
  · rfl
  · split
    · cases h : t.nodes[k]? <;> simp [parentKey?, h]
    · rfl

theorem keysBelow_addBelow (hparent : ∀ p ∈ parent, p < t.size) (k : Nat) :
    (t.addBelow data parent).keysBelow k =
      t.keysBelow k ++ if parent = some k then [t.size] else [] := by
  rw [keysBelow, size_addBelow, List.range_succ, List.filter_append, keysBelow]
  congr 1
  · refine List.filter_congr fun j hj => ?_
    rw [parentKey?_addBelow hparent, if_neg (Nat.ne_of_lt (List.mem_range.1 hj))]
  · rw [List.filter_singleton, parentKey?_addBelow hparent, if_pos rfl]
    simp only [cond_eq_ite, beq_iff_eq]

theorem not_mem_keysBelow_size (t : SyntaxTree) (k : Nat) : t.size ∉ t.keysBelow k := fun h =>
  Nat.lt_irrefl _ (List.mem_range.1 (List.mem_filter.1 h).1)

theorem keysBelow_size (hrange : ∀ k p, t.parentKey? k = some p → p < t.size) :
    t.keysBelow t.size = [] := by
  rw [keysBelow, List.filter_eq_nil_iff]
  intro k _ hk
  exact Nat.lt_irrefl _ (hrange k _ (by simpa using hk))

theorem insertLink_shapeLinks {keys : List Nat} {k : Nat} (h : k ∉ keys) :
    insertLink .structural k (shapeLinks keys) = shapeLinks (keys ++ [k]) := by
  cases keys with
  | nil => rfl
  | cons j rest => simp [shapeLinks, insertLink, h]

theorem Shaped.addBelow (h : t.Shaped) (hrange : ∀ k p, t.parentKey? k = some p → p < t.size)
    (hparent : ∀ p ∈ parent, p < t.size) : (t.addBelow data parent).Shaped := by
  -- Either `k` is the new node, or the one it was added below, or another.
  intro k x hx
  rw [getElem?_addBelow hparent] at hx
  rw [keysBelow_addBelow hparent]
  split at hx
  · next hk =>
    subst hk
    have hnew : parent ≠ some t.size := fun heq => Nat.lt_irrefl _ (hparent _ heq)
    rw [if_neg hnew, keysBelow_size hrange]
    cases hx
    rfl
  · split at hx
    · next hk =>
      obtain ⟨y, hy, rfl⟩ := Option.map_eq_some_iff.1 hx
      rw [if_pos hk, ← insertLink_shapeLinks (t.not_mem_keysBelow_size k), ← h k y hy]
    · next hk => rw [if_neg hk, List.append_nil, h k x hx]

end CodeGraph.SyntaxTree

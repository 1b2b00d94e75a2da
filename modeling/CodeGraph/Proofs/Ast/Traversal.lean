import CodeGraph.Proofs.Ast.Forest

/-!
# Pre-order as a recursion

`traverse` says what pre-order is to list without pending nodes: a node whose identity was met is
listed alone, any other is listed with what its children give one after the other, and what was met
is handed from each to the next. It ends because a node is only entered with a new identity, and no
identity is forgotten. `preorder_eq_traverse` states that the walk lists the same. What a walk does
with nodes on top of its pending ones is to traverse them and to go on below with what was met by
then (`Walks`), so no node below is looked at too early.
-/

namespace CodeGraph.Ast

variable {n : Nat}

/-- What a traversal lists, and the identities met by its end, those met before among them. -/
structure Traversal (n : Nat) (before : Seen) where
  nodes : List (Fin n)
  seen : Seen
  kept : ∀ id, before.contains id = true → seen.contains id = true

theorem unseen_le (a : Ast n) {before seen : Seen}
    (h : ∀ id, before.contains id = true → seen.contains id = true) :
    a.unseen seen ≤ a.unseen before := by
  refine List.countP_mono_left fun i _ hi => ?_
  rw [Bool.not_eq_true', Bool.eq_false_iff] at hi ⊢
  exact fun hbefore => hi (h _ hbefore)

mutual

/-- A node alone if its identity was met, else the node and what its children give. -/
def traverse (a : Ast n) (i : Fin n) (seen : Seen) : Traversal n seen :=
  if seen.contains (a.identity i) then ⟨[i], seen, fun _ => id⟩
  else
    let below := a.traverseAll (a.children i) (seen.insert (a.identity i))
    ⟨i :: below.nodes, below.seen, fun id hid => below.kept id (contains_insert_iff.2 (.inr hid))⟩
termination_by (a.unseen seen, 0)
decreasing_by exact Prod.Lex.left _ _ (a.unseen_insert_lt ‹_›)

/-- What nodes give one after the other. -/
def traverseAll (a : Ast n) (nodes : List (Fin n)) (seen : Seen) : Traversal n seen :=
  match nodes with
  | [] => ⟨[], seen, fun _ => id⟩
  | i :: rest =>
    let first := a.traverse i seen
    let later := a.traverseAll rest first.seen
    ⟨first.nodes ++ later.nodes, later.seen, fun id hid => later.kept id (first.kept id hid)⟩
termination_by (a.unseen seen, nodes.length)
decreasing_by
  · exact Prod.Lex.right _ (Nat.succ_pos _)
  · exact Prod.Lex.right' _ (a.unseen_le first.kept) (Nat.lt_succ_self _)

end

/-! ## Walks and traversals -/

/-- Whether a walk with `front` on top of its pending nodes lists what a traversal lists, and goes
on below with what was met by then. -/
def Walks (a : Ast n) {seen : Seen} (front : List (Fin n)) (t : Traversal n seen) : Prop :=
  ∀ rest, a.listed (front ++ rest) seen = t.nodes ++ a.listed rest t.seen

variable {a : Ast n} {i : Fin n} {rest : List (Fin n)} {seen : Seen}

theorem walks_of_seen (h : seen.contains (a.identity i) = true) :
    a.Walks [i] (a.traverse i seen) := by
  intro pending
  rw [List.singleton_append, listed_cons_seen a h, traverse, if_pos h]
  rfl

theorem walks_of_fresh (h : ¬ seen.contains (a.identity i) = true)
    (hbelow : a.Walks (a.children i)
      (a.traverseAll (a.children i) (seen.insert (a.identity i)))) :
    a.Walks [i] (a.traverse i seen) := by
  intro pending
  rw [List.singleton_append, listed_cons_fresh a h, hbelow, traverse, if_neg h]
  rfl

theorem walks_nil : a.Walks [] (a.traverseAll [] seen) := by
  intro pending
  rw [traverseAll]
  rfl

theorem walks_cons (hfirst : a.Walks [i] (a.traverse i seen))
    (hlater : a.Walks rest (a.traverseAll rest (a.traverse i seen).seen)) :
    a.Walks (i :: rest) (a.traverseAll (i :: rest) seen) := by
  intro pending
  change a.listed ([i] ++ (rest ++ pending)) seen = _
  rw [hfirst, hlater, traverseAll, List.append_assoc]

/-- The induction is that of the recursion, over nodes and over lists of nodes at once. -/
theorem walks_traverse (a : Ast n) :
    (∀ i seen, a.Walks [i] (a.traverse i seen)) ∧
      ∀ nodes seen, a.Walks nodes (a.traverseAll nodes seen) := by
  refine traverse.mutual_induct a (fun i seen => a.Walks [i] (a.traverse i seen))
    (fun nodes seen => a.Walks nodes (a.traverseAll nodes seen)) ?seen ?fresh ?nil ?cons
  case seen => exact fun i seen h => walks_of_seen h
  case fresh => exact fun i seen h hbelow => walks_of_fresh h hbelow
  case nil => exact fun seen => walks_nil
  case cons =>
    intro seen i rest first hfirst hlater _
    exact walks_cons hfirst hlater

/-- **Pre-order as a recursion.** Whatever is shared, leads back or has an identity in common, a
walk lists the nodes that the recursion lists, in the same order. -/
theorem preorder_eq_traverse (a : Ast n) (root : Fin n) :
    a.preorder root = (a.traverse root ∅).nodes := by
  have h := a.walks_traverse.1 root ∅ []
  rwa [listed_nil, List.append_nil, List.append_nil] at h

end CodeGraph.Ast

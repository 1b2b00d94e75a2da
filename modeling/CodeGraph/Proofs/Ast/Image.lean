import CodeGraph.Proofs.Ast.Forest

/-!
# One structure shown in another

An `Image` takes each node of a structure to a node of another that tells the same: kind, text,
name, kind of the parent, and the links of the relations that are kept, to the images of their
targets. Identities may be others, but two nodes share one if and only if their images do. Where
structural links are kept, pre-order lists the images in the same order (`Image.preorder_eq`): the
two walks look at different identities, and still have seen the same nodes at any time.
-/

namespace CodeGraph.Ast

variable {n m : Nat}

/-- How the nodes of one structure show in another that keeps some of the relations. -/
structure Image (keep : Relation → Bool) (a : Ast n) (b : Ast m) where
  node : Fin n → Fin m
  size : n = m
  kind : ∀ i, b.kind (node i) = a.kind i
  text : ∀ i, b.text (node i) = a.text i
  name? : ∀ i, b.name? (node i) = a.name? i
  parentKind : ∀ i, (b.parent? (node i)).map b.kind = (a.parent? i).map a.kind
  links : ∀ i, b.links (node i) =
    ((a.links i).filter fun e => keep e.1).map fun e => (e.1, e.2.map node)
  identity : ∀ i j, b.identity (node i) = b.identity (node j) ↔ a.identity i = a.identity j

namespace Image

variable {keep : Relation → Bool} {a : Ast n} {b : Ast m} (f : Image keep a b)

/-- Each structure shows in itself. -/
def refl (a : Ast n) : Image (fun _ => true) a a where
  node := id
  size := rfl
  kind _ := rfl
  text _ := rfl
  name? _ := rfl
  parentKind _ := rfl
  links i := by simp
  identity _ _ := Iff.rfl

/-! ## Pre-order -/

section preorder

variable (hkeep : keep .structural = true)

include hkeep

theorem children_eq (i : Fin n) : b.children (f.node i) = (a.children i).map f.node := by
  have hfind : (((a.links i).filter fun e => keep e.1).map fun e => (e.1, e.2.map f.node)).find?
      (·.1 == .structural) =
      ((a.links i).find? (·.1 == .structural)).map fun e => (e.1, e.2.map f.node) := by
    rw [List.find?_map, List.find?_filter]
    congr 2
    funext e
    by_cases he : e.1 = .structural
    · simp [he, hkeep]
    · simp [he]
  unfold children related
  rw [f.links, hfind]
  cases (a.links i).find? (·.1 == .structural) <;> rfl

theorem listed_eq (stack : List (Fin n)) {seen seen' : Seen}
    (hseen : ∀ i, seen'.contains (b.identity (f.node i)) = seen.contains (a.identity i)) :
    b.listed (stack.map f.node) seen' = (a.listed stack seen).map f.node := by
  -- The induction is along the walk over `a`; `seen'` is what the other walk has seen by then.
  induction stack, seen using a.walk_induct generalizing seen' with
  | nil seen => rw [List.map_nil, listed_nil, listed_nil, List.map_nil]
  | skip i rest seen hi ih =>
    have hi' : seen'.contains (b.identity (f.node i)) = true := by rw [hseen, hi]
    rw [List.map_cons, listed_cons_seen b hi', listed_cons_seen a hi, ih hseen, List.map_cons]
  | enter i rest seen hi ih =>
    have hi' : ¬ seen'.contains (b.identity (f.node i)) = true := by rwa [hseen]
    rw [List.map_cons, listed_cons_fresh b hi', listed_cons_fresh a hi, List.map_cons,
      f.children_eq hkeep, ← List.map_append]
    congr 1
    apply ih
    intro j
    rw [Bool.eq_iff_iff, contains_insert_iff, contains_insert_iff, f.identity, hseen]

theorem preorder_eq (root : Fin n) : b.preorder (f.node root) = (a.preorder root).map f.node := by
  rw [preorder_eq_listed, preorder_eq_listed]
  exact f.listed_eq hkeep [root] fun i => by simp

end preorder

end Image

end CodeGraph.Ast

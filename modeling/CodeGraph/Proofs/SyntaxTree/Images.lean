import CodeGraph.Proofs.Ast.Image
import CodeGraph.Proofs.SyntaxTree.View

/-!
# Syntax trees with fewer links

A conversion sees a syntax tree that has the nodes of another, but only the links of some relations,
as an image of it (`SyntaxTree.image`). The numbers of the trees, which make their identities
different, do not matter: whether two nodes share an identity depends on their keys alone.
-/

namespace CodeGraph.SyntaxTree

/-- The node with the links of the relations that are kept. -/
def Node.restrict (keep : Relation → Bool) (x : Node) : Node :=
  { x with links := x.links.filter fun e => keep e.1 }

theorem map_restrict_true (nodes : Array Node) :
    nodes.map (Node.restrict fun _ => true) = nodes := by
  have hid : Node.restrict (fun _ => true) = id := by
    funext x
    simp [Node.restrict]
  rw [hid, Array.map_id]

theorem size_eq_of_nodes {t u : SyntaxTree} (h : t.nodes = u.nodes) : t.size = u.size :=
  congrArg Array.size h

theorem nodeName?_cast {t u : SyntaxTree} (h : t.size = u.size) (key : Nat) :
    u.nodeName? key = (t.nodeName? key).map (Fin.cast h) := by
  unfold nodeName?
  by_cases hkey : key < t.size
  · rw [dif_pos hkey, dif_pos (h ▸ hkey)]
    rfl
  · rw [dif_neg hkey, dif_neg (h ▸ hkey)]
    rfl

section image

variable {t u : SyntaxTree} {keep : Relation → Bool}
  (h : u.nodes = t.nodes.map (Node.restrict keep))

include h

theorem size_of_restrict : t.size = u.size := by
  unfold size
  rw [h, Array.size_map]

theorem getElem?_of_restrict {k : Nat} {x : Node} (hx : t.nodes[k]? = some x) :
    u.nodes[k]? = some (x.restrict keep) := by
  rw [h, Array.getElem?_map, hx, Option.map_some]

theorem exists_node_of_restrict (i : Fin t.size) :
    ∃ x, t.ast.node i = t.astNode i x ∧
      u.ast.node (i.cast (size_of_restrict h)) = u.astNode i (x.restrict keep) := by
  obtain ⟨x, hx⟩ := exists_node i
  exact ⟨x, node_ast hx, node_ast (i := i.cast (size_of_restrict h)) (getElem?_of_restrict h hx)⟩

/-- How a tree shows in one with the links of some relations. -/
def image : Ast.Image keep t.ast u.ast where
  node := Fin.cast (size_of_restrict h)
  size := size_of_restrict h
  kind i := by
    obtain ⟨x, hx, hy⟩ := exists_node_of_restrict h i
    rw [Ast.kind, Ast.kind, hx, hy]
    rfl
  text i := by
    obtain ⟨x, hx, hy⟩ := exists_node_of_restrict h i
    rw [Ast.text, Ast.text, hx, hy]
    rfl
  name? i := by
    obtain ⟨x, hx, hy⟩ := exists_node_of_restrict h i
    rw [Ast.name?, Ast.name?, hx, hy]
    rfl
  parentKind i := by
    have hkind : u.ast.kind ∘ Fin.cast (size_of_restrict h) = t.ast.kind := by
      funext j
      obtain ⟨x, hx, hy⟩ := exists_node_of_restrict h j
      rw [Function.comp_apply, Ast.kind, Ast.kind, hx, hy]
      rfl
    obtain ⟨x, hx⟩ := exists_node i
    have hy := getElem?_of_restrict h hx
    rw [parent?_ast hx, parent?_ast (i := i.cast (size_of_restrict h)) hy, Node.restrict]
    cases x.parent with
    | none => simp only [Option.bind_none, Option.map_none]
    | some key =>
      rw [Option.bind_some, Option.bind_some, nodeName?_cast (size_of_restrict h), Option.map_map,
        hkind]
  links i := by
    have hname : u.nodeName? = fun key => (t.nodeName? key).map (Fin.cast (size_of_restrict h)) :=
      funext (nodeName?_cast (size_of_restrict h))
    obtain ⟨x, hx, hy⟩ := exists_node_of_restrict h i
    rw [Ast.links, Ast.links, hx, hy]
    unfold astNode Node.restrict
    rw [hname, List.filter_map, List.map_map]
    simp only [← List.map_filterMap]
    rfl
  identity i j := by
    rw [identity_ast, identity_ast, identity_ast, identity_ast, identity_eq_iff, identity_eq_iff]
    exact and_congr (iff_of_true rfl rfl) Iff.rfl

end image

end CodeGraph.SyntaxTree

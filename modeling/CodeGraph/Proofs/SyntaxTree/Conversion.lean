import CodeGraph.Proofs.Conversion.Edges
import CodeGraph.Proofs.Conversion.Outcome
import CodeGraph.Proofs.SyntaxTree.Targets

/-!
# Regular syntax trees convert

A regular syntax tree is convertible with the attributes from its source, in any conversion that has
not taken up its nodes before (`Regular.convertible`). Its vertices are numbered as its keys, and
its edges show how these are related (`Sound.exists_relates_of_add`,
`Sound.exists_edge_of_relates`).
-/

namespace CodeGraph.SyntaxTree

open Attempt Conversion

variable {t : SyntaxTree} {c c' : Conversion} {spans : Bool} {root : Fin t.size}

theorem Sound.preorder_eq (h : t.Sound) (hroot : root.val = 0) :
    t.ast.preorder root = List.finRange t.size :=
  h.numbered_ast.preorder_eq hroot

/-- A walk over a sound tree never leaves it. -/
theorem Sound.preorder?_eq (h : t.Sound) (hroot : root.val = 0) :
    t.preorder? root = .ok (List.finRange t.size) := by
  have hok : (t.ast.preorder root).all (fun i => (t.links? i).isOk) = true := by
    rw [List.all_eq_true]
    intro i _
    obtain ⟨x, hx⟩ := exists_node i
    rw [h.links?_eq hx]
    rfl
  rw [preorder?, if_pos hok, h.preorder_eq hroot]

theorem Regular.convertible (h : t.Regular) (hroot : root.val = 0)
    (hnew : ∀ i : Fin t.size, ¬ c.handles.contains (t.identity i) = true) :
    c.Convertible t.ast (t.sourceAttributes spans) root where
  distinct := by
    rw [h.preorder_eq hroot]
    exact (List.nodup_finRange _).map fun i j => h.numbered_ast.distinct i j
  fresh i _ := by
    rw [identity_ast]
    exact hnew i
  usable i _ := h.sourceAttributes_eq spans i
  named i _ targets he target htarget := h.isSome_name? he htarget
  known i _ relation targets he _ _ target htarget := by
    rw [h.preorder_eq hroot]
    exact .inl (List.mem_map_of_mem (List.mem_finRange target))

theorem Regular.exists_add (h : t.Regular) (hroot : root.val = 0)
    (hnew : ∀ i : Fin t.size, ¬ c.handles.contains (t.identity i) = true) :
    ∃ c', c.add t.ast (t.sourceAttributes spans) root = .ok c' := by
  have hone : ∀ i ∈ t.ast.preorder root, t.ast.structuralCount i ≤ 1 := fun i _ =>
    h.structuralCount_le_one i
  rw [← failure?_eq_none_iff, failure?_add hone, fault?_eq_none_iff hone]
  exact h.convertible hroot hnew

theorem Sound.idAt?_of_add (h : t.Sound) (hroot : root.val = 0)
    (hadd : c.add t.ast (t.sourceAttributes spans) root = .ok c') (key : Fin t.size) :
    (c'.handles[t.identity key]?).bind c'.graph.idAt? = some (c.nextId + key) := by
  rw [← identity_ast]
  refine Conversion.idAt?_of_add hadd ?_
  rw [h.preorder_eq hroot, List.getElem?_eq_getElem (by simp)]
  simp

theorem Sound.size_of_add (h : t.Sound) (hroot : root.val = 0)
    (hadd : c.add t.ast (t.sourceAttributes spans) root = .ok c') :
    c'.graph.vertices.size = c.graph.vertices.size + t.size := by
  rw [Conversion.size_of_add hadd, h.preorder_eq hroot, List.length_finRange]

theorem Sound.length_edgesLabeled_of_add (h : t.Sound) (hroot : root.val = 0)
    (hadd : c.add t.ast (t.sourceAttributes spans) root = .ok c') :
    (c'.graph.edgesLabeled Relation.structural.label).length + 1 =
      (c.graph.edgesLabeled Relation.structural.label).length + t.size := by
  rw [Conversion.length_edgesLabeled_of_add (fun i _ => h.structuralCount_le_one i) hadd,
    h.preorder_eq hroot, List.length_finRange]

theorem Sound.exists_relates_of_add (h : t.Sound) (hroot : root.val = 0)
    (hadd : c.add t.ast (t.sourceAttributes spans) root = .ok c') {e : Edge}
    (he : e ∈ c'.graph.edges) :
    e ∈ c.graph.edges ∨ ∃ relation k j, t.Relates relation k j ∧ e.label = relation.label ∧
      e.source = c.nextId + k ∧ e.target = c.nextId + j := by
  refine (exists_link_of_add (fun i _ => h.structuralCount_le_one i) hadd he).imp_right ?_
  rintro ⟨i, -, relation, targets, hentry, hlabel, hsource, j, hj, htarget⟩
  rw [identity_ast, h.idAt?_of_add hroot hadd, Option.some.injEq] at hsource htarget
  obtain ⟨x, hx⟩ := exists_node i
  exact ⟨relation, i, j, (h.relates_iff_linked hx).2 (linked_of_mem_links_ast hx hentry hj), hlabel,
    hsource.symm, htarget.symm⟩

theorem Sound.exists_edge_of_relates (h : t.Sound) (hroot : root.val = 0)
    (hadd : c.add t.ast (t.sourceAttributes spans) root = .ok c') {relation : Relation}
    (hrel : relation ≠ .type) {k j : Nat} (hkj : t.Relates relation k j) :
    ∃ e ∈ c'.graph.edgesLabeled relation.label,
      e.source = c.nextId + k ∧ e.target = c.nextId + j := by
  have hk := lt_size_of_relates hkj
  have hx : t.nodes[k]? = some t.nodes[k] := Array.getElem?_eq_getElem hk
  have hlinked := (h.relates_iff_linked hx).1 hkj
  have hj : j < t.size := h.inRange k _ hx relation j hlinked
  obtain ⟨found, hentry, hmem⟩ := mem_links_ast_of_linked (i := ⟨k, hk⟩) (j := ⟨j, hj⟩) hx hlinked
  have hpreorder : ∀ i : Fin t.size, i ∈ t.ast.preorder root := fun i => by
    rw [h.preorder_eq hroot]
    exact List.mem_finRange i
  obtain ⟨e, he, hlabel, hsource, htarget⟩ := exists_edge_of_link
    (fun i _ => h.structuralCount_le_one i) hadd (hpreorder _) (hpreorder _) hentry hmem hrel
  rw [identity_ast, h.idAt?_of_add hroot hadd, Option.some.injEq] at hsource htarget
  refine ⟨e, List.mem_filter.2 ⟨Array.mem_toList_iff.2 he, beq_iff_eq.2 hlabel⟩, ?_, ?_⟩
  · exact hsource.symm
  · exact htarget.symm

end CodeGraph.SyntaxTree

import CodeGraph.Proofs.Conversion.Vertices
import CodeGraph.Proofs.EdgeWalk.Faults

/-!
# What a tree adds to a graph

A tree that is taken up adds a vertex for each of its nodes, and these have the next ids in
pre-order (`idAt?_of_add`). Each added edge stands for a link of one of its nodes
(`exists_link_of_add`), and those of a relation for the links of that relation. So there is one
structural edge for each node but the root, if no node has two structural entries
(`length_edgesLabeled_of_add`).
-/

namespace CodeGraph

theorem Relation.label_inj {r s : Relation} : r.label = s.label ↔ r = s := by
  refine ⟨fun h => ?_, congrArg label⟩
  have hr := ofLabel?_label r
  rw [h, ofLabel?_label] at hr
  exact (Option.some.inj hr).symm

namespace EdgeWalk

variable {n : Nat} {a : Ast n} {vertexOf : NodeId → Option Nat} {idAt : Nat → Option Nat}

theorem label_of_linkArc? {l : Ast.Link n} {x : Arc} (h : linkArc? a vertexOf idAt l = some x) :
    x.edge.label = l.relation.label := (standsFor_of_linkArc? h).label

theorem ids_of_linkArc? {l : Ast.Link n} {x : Arc} (h : linkArc? a vertexOf idAt l = some x) :
    (vertexOf (a.identity l.source)).bind idAt = some x.edge.source ∧
      (vertexOf (a.identity l.target)).bind idAt = some x.edge.target := by
  have hstands := standsFor_of_linkArc? h
  rw [hstands.tail, hstands.head]
  exact ⟨hstands.source, hstands.target⟩

theorem filter_linkArcs (r : Relation) (links : List (Ast.Link n)) :
    (links.filterMap (linkArc? a vertexOf idAt)).filter (·.edge.label == r.label) =
      (links.filter (·.relation == r)).filterMap (linkArc? a vertexOf idAt) := by
  rw [List.filter_filterMap, List.filterMap_filter]
  refine List.filterMap_congr fun l _ => ?_
  cases h : linkArc? a vertexOf idAt l with
  | none => simp
  | some x =>
    rw [Option.filter_some, label_of_linkArc? h]
    simp only [beq_iff_eq, Relation.label_inj]

end EdgeWalk

namespace Conversion

open Attempt EdgeWalk

variable {n : Nat} {a : Ast n} {source : AttributeSource n} {nodes : List (Fin n)} {root : Fin n}
  {c c' : Conversion}

/-! ## Vertices -/

theorem TakesUp.size (h : TakesUp a source nodes c c') :
    c'.graph.vertices.size = c.graph.vertices.size + nodes.length := by
  rw [← Array.length_toList, h.vertices]
  simp

theorem TakesUp.idAt? (h : TakesUp a source nodes c c') {place : Nat} {i : Fin n}
    (hi : nodes[place]? = some i) :
    c'.graph.idAt? (c.graph.vertices.size + place) = some (c.nextId + place) := by
  rw [PropertyGraph.idAt?, ← Array.getElem?_toList, h.vertices,
    List.getElem?_append_right (by simp)]
  simp [hi]

theorem exists_takesUp_of_add (h : c.add a source root = .ok c') :
    ∃ c₁ g, TakesUp a source (a.preorder root) c c₁ ∧
      EdgeWalk.start a (c₁.handles[·]?) c₁.graph root = .ok g ∧ c' = { c₁ with graph := g } := by
  rw [add_eq, bind_eq_ok_iff] at h
  obtain ⟨c₁, hvertices, h⟩ := h
  obtain ⟨g, hstart, rfl⟩ := map_eq_ok_iff.1 h
  exact ⟨c₁, g, takesUp_of_foldlM hvertices, hstart, rfl⟩

theorem size_of_add (h : c.add a source root = .ok c') :
    c'.graph.vertices.size = c.graph.vertices.size + (a.preorder root).length := by
  obtain ⟨c₁, g, htakes, hstart, rfl⟩ := exists_takesUp_of_add h
  exact (vertices_of_start_eq_ok hstart).1.trans htakes.size

theorem idAt?_of_add (h : c.add a source root = .ok c') {place : Nat} {i : Fin n}
    (hi : (a.preorder root)[place]? = some i) :
    (c'.handles[a.identity i]?).bind c'.graph.idAt? = some (c.nextId + place) := by
  obtain ⟨c₁, g, htakes, hstart, rfl⟩ := exists_takesUp_of_add h
  rw [(vertices_of_start_eq_ok hstart).2, htakes.cached place i hi, Option.bind_some,
    htakes.idAt? hi]

/-! ## Edges -/

theorem mem_arcs_of_add (hone : ∀ i ∈ a.preorder root, a.structuralCount i ≤ 1)
    (h : c.add a source root = .ok c') {x : Arc} :
    x ∈ c'.graph.arcs.toList ↔ x ∈ c.graph.arcs.toList ∨ ∃ i ∈ a.preorder root,
      ∃ l ∈ a.nodeLinks i, linkArc? a (c'.handles[·]?) c'.graph.idAt? l = some x := by
  obtain ⟨c₁, g, htakes, hstart, rfl⟩ := exists_takesUp_of_add h
  have hlinks := fun l => Ast.mem_linkOrder (l := l) htakes.nodup hone
  rw [arcs_of_start_eq_ok hstart, htakes.arcs, List.mem_append, List.mem_filterMap,
    (vertices_of_start_eq_ok hstart).2]
  refine or_congr_right ⟨?_, ?_⟩
  · rintro ⟨l, hl, hx⟩
    obtain ⟨i, hi, hlink⟩ := (hlinks l).1 hl
    exact ⟨i, hi, l, hlink, hx⟩
  · rintro ⟨i, hi, l, hlink, hx⟩
    exact ⟨l, (hlinks l).2 ⟨i, hi, hlink⟩, hx⟩

theorem exists_link_of_add (hone : ∀ i ∈ a.preorder root, a.structuralCount i ≤ 1)
    (h : c.add a source root = .ok c') {e : Edge} (he : e ∈ c'.graph.edges) :
    e ∈ c.graph.edges ∨ ∃ i ∈ a.preorder root, ∃ relation targets,
      (relation, targets) ∈ a.links i ∧ e.label = relation.label ∧
      (c'.handles[a.identity i]?).bind c'.graph.idAt? = some e.source ∧
      ∃ j ∈ targets, (c'.handles[a.identity j]?).bind c'.graph.idAt? = some e.target := by
  obtain ⟨x, hx, rfl⟩ := Array.mem_map.1 he
  rcases (mem_arcs_of_add hone h).1 hx.val with hx | ⟨i, hi, l, hlink, hx⟩
  · exact .inl (Array.mem_map.2 ⟨x, ⟨hx⟩, rfl⟩)
  · obtain ⟨rfl, targets, hentry, htarget⟩ := Ast.mem_nodeLinks.1 hlink
    obtain ⟨hsource, hid⟩ := ids_of_linkArc? hx
    exact .inr ⟨l.source, hi, l.relation, targets, hentry, label_of_linkArc? hx, hsource, l.target,
      htarget, hid⟩

theorem exists_edge_of_link (hone : ∀ i ∈ a.preorder root, a.structuralCount i ≤ 1)
    (h : c.add a source root = .ok c') {i j : Fin n} (hi : i ∈ a.preorder root)
    (hj : j ∈ a.preorder root) {relation : Relation} {targets : List (Fin n)}
    (hentry : (relation, targets) ∈ a.links i) (htarget : j ∈ targets) (hrel : relation ≠ .type) :
    ∃ e ∈ c'.graph.edges, e.label = relation.label ∧
      (c'.handles[a.identity i]?).bind c'.graph.idAt? = some e.source ∧
      (c'.handles[a.identity j]?).bind c'.graph.idAt? = some e.target := by
  obtain ⟨p, hp⟩ := List.mem_iff_getElem?.1 hi
  obtain ⟨q, hq⟩ := List.mem_iff_getElem?.1 hj
  have hlink : ⟨i, relation, j⟩ ∈ a.nodeLinks i :=
    Ast.mem_nodeLinks.2 ⟨rfl, targets, hentry, htarget⟩
  obtain ⟨x, hx⟩ := Option.isSome_iff_exists.1
    (isSome_linkArc? (l := ⟨i, relation, j⟩) hrel (idAt?_of_add h hp) (idAt?_of_add h hq))
  obtain ⟨hsource, hid⟩ := ids_of_linkArc? hx
  refine ⟨x.edge, Array.mem_map.2 ⟨x, ⟨?_⟩, rfl⟩, label_of_linkArc? hx, hsource, hid⟩
  exact (mem_arcs_of_add hone h).2 (.inr ⟨i, hi, _, hlink, hx⟩)

/-! ## Structural edges -/

theorem TakesUp.isSome_linkArc? (h : TakesUp a source nodes c c') {l : Ast.Link n}
    (hrel : l.relation ≠ .type) (hsource : l.source ∈ nodes) (htarget : l.target ∈ nodes) :
    (linkArc? a (c'.handles[·]?) c'.graph.idAt? l).isSome := by
  obtain ⟨p, hp⟩ := List.mem_iff_getElem?.1 hsource
  obtain ⟨q, hq⟩ := List.mem_iff_getElem?.1 htarget
  have hids : ∀ place i, nodes[place]? = some i →
      (c'.handles[a.identity i]?).bind c'.graph.idAt? = some (c.nextId + place) := by
    intro place i hi
    rw [h.cached place i hi, Option.bind_some, h.idAt? hi]
  exact EdgeWalk.isSome_linkArc? hrel (hids p _ hp) (hids q _ hq)

theorem length_edgesLabeled (g : PropertyGraph) (label : String) :
    (g.edgesLabeled label).length = (g.arcs.toList.filter (·.edge.label == label)).length := by
  rw [PropertyGraph.edgesLabeled, PropertyGraph.edges, Array.toList_map, List.filter_map,
    List.length_map]
  rfl

/-- Pre-order is the root, and then what the structural links lead to in the order of the edge
walk. -/
theorem TakesUp.preorder_eq (h : TakesUp a source (a.preorder root) c c')
    (hone : ∀ i ∈ a.preorder root, a.structuralCount i ≤ 1) :
    a.preorder root =
      root :: ((a.linkOrder (n + 1) root).filter (·.relation == .structural)).map (·.target) := by
  have hlength := Ast.length_le_of_nodup h.nodup
  have hnodes := ((Ast.spans_preorder h.nodup).eq_visits_iff (show _ ≤ n + 1 by omega)).2
    fun i hi => Ast.structuralTargets_eq_children (hone i hi)
  rwa [List.flatMap_singleton, Ast.visits_eq] at hnodes

theorem TakesUp.isSome_structural (h : TakesUp a source (a.preorder root) c c')
    (hone : ∀ i ∈ a.preorder root, a.structuralCount i ≤ 1) :
    ∀ l ∈ (a.linkOrder (n + 1) root).filter (·.relation == .structural),
      (linkArc? a (c'.handles[·]?) c'.graph.idAt? l).isSome := by
  intro l hl
  obtain ⟨hmem, hrel⟩ := List.mem_filter.1 hl
  have hrel : l.relation = .structural := by simpa using hrel
  obtain ⟨i, hi, hlink⟩ := (Ast.mem_linkOrder h.nodup hone).1 hmem
  refine h.isSome_linkArc? (by rw [hrel]; decide) ?_ ?_
  · exact (Ast.mem_nodeLinks.1 hlink).1 ▸ hi
  · rw [h.preorder_eq hone]
    exact List.mem_cons_of_mem _ (List.mem_map_of_mem hl)

/-- A tree adds a structural edge for each of its nodes but the root. -/
theorem length_edgesLabeled_of_add (hone : ∀ i ∈ a.preorder root, a.structuralCount i ≤ 1)
    (h : c.add a source root = .ok c') :
    (c'.graph.edgesLabeled Relation.structural.label).length + 1 =
      (c.graph.edgesLabeled Relation.structural.label).length + (a.preorder root).length := by
  obtain ⟨c₁, g, htakes, hstart, rfl⟩ := exists_takesUp_of_add h
  have hcount := congrArg List.length (htakes.preorder_eq hone)
  rw [List.length_cons, List.length_map] at hcount
  rw [length_edgesLabeled, length_edgesLabeled, arcs_of_start_eq_ok hstart, htakes.arcs,
    List.filter_append, List.length_append, filter_linkArcs,
    List.filterMap_length_eq_length.2 (htakes.isSome_structural hone), hcount]
  omega

end Conversion

end CodeGraph

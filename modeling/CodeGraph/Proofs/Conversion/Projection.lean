import CodeGraph.Graph.Document
import CodeGraph.Proofs.Conversion.Edges
import CodeGraph.Proofs.Conversion.Images
import CodeGraph.Proofs.Conversion.Outcome
import CodeGraph.Proofs.Record

/-!
# Graphs of structures with fewer links

A structure that shows another but for the links of some relations becomes a projection of its
graph: the edges of these relations are left out, and if types are among them, so are the
references of the vertices (`exists_graphOf_image`). This is so from change to change of the two
edge walks (`Projects.apply`), and holds at first because no vertex has a reference yet.
-/

namespace CodeGraph

/-- The vertex without its reference, if types are dropped. -/
def Vertex.project (dropped : List Relation) (v : Vertex) : Vertex :=
  if .type ∈ dropped then { v with properties := v.properties.erase PropertyName.reference } else v

/-- A document without what stands for the links of some relations. -/
def GraphDocument.project (dropped : List Relation) (d : GraphDocument) : GraphDocument where
  version := d.version
  vertices := d.vertices.map (·.project dropped)
  edges := d.edges.filter (·.label ∉ dropped.map Relation.label)

/-- Whether a graph is another without what stands for the links of some relations. -/
structure PropertyGraph.Projects (dropped : List Relation) (g g' : PropertyGraph) : Prop where
  vertices : g'.vertices.toList = g.vertices.toList.map (·.project dropped)
  arcs : g'.arcs.toList = g.arcs.toList.filter (·.edge.label ∉ dropped.map Relation.label)

theorem PropertyGraph.Projects.document {dropped : List Relation} {g g' : PropertyGraph}
    (h : g.Projects dropped g') :
    GraphDocument.ofGraph g' = (GraphDocument.ofGraph g).project dropped := by
  simp only [GraphDocument.ofGraph, GraphDocument.project, edges, Array.toList_map, h.vertices,
    h.arcs, List.filter_map]
  rfl

theorem Relation.label_mem_map_iff {relation : Relation} {relations : List Relation} :
    relation.label ∈ relations.map label ↔ relation ∈ relations := by
  rw [List.mem_map]
  constructor
  · rintro ⟨r, hr, heq⟩
    exact label_inj.1 heq ▸ hr
  · intro h
    exact ⟨relation, h, rfl⟩

namespace EdgeWalk

open PropertyGraph

/-! ## Changes -/

variable {dropped : List Relation} {g g' : PropertyGraph}

theorem Projects.idAt? (h : g.Projects dropped g') : g'.idAt? = g.idAt? := by
  funext handle
  unfold PropertyGraph.idAt?
  rw [← Array.getElem?_toList, h.vertices, List.getElem?_map, Option.map_map,
    Array.getElem?_toList]
  congr 1
  funext v
  unfold Vertex.project
  rw [Function.comp_apply]
  split <;> rfl

theorem label_of_arc? {idAt : Nat → Option Nat} {relation : Relation} {source target : Nat}
    {x : Arc} (h : (Change.edge relation source target).arc? idAt = some x) :
    x.edge.label = relation.label := by
  simp only [Change.arc?, Option.bind_eq_bind, Option.bind_eq_some_iff, Option.some.injEq] at h
  obtain ⟨_, -, _, -, rfl⟩ := h
  rfl

theorem filter_arc? (dropped : List Relation) (idAt : Nat → Option Nat) (relation : Relation)
    (source target : Nat) :
    ((Change.edge relation source target).arc? idAt).toList.filter
      (·.edge.label ∉ dropped.map Relation.label) =
    if relation ∈ dropped then []
    else ((Change.edge relation source target).arc? idAt).toList := by
  cases hx : (Change.edge relation source target).arc? idAt with
  | none => simp
  | some x =>
    rw [Option.toList_some, List.filter_singleton, label_of_arc? hx]
    by_cases hrel : relation ∈ dropped
    · simp [hrel, Relation.label_mem_map_iff]
    · simp [hrel, Relation.label_mem_map_iff]

/-- A reference is nothing but what a projection takes away, if types are dropped. -/
theorem map_project_modify (ht : Relation.type ∈ dropped) (vertices : List Vertex) (vertex : Nat)
    (names : String) :
    (vertices.modify vertex (·.setProperty PropertyName.reference (.text names))).map
      (·.project dropped) = vertices.map (·.project dropped) := by
  apply List.ext_getElem?
  intro i
  rw [List.getElem?_map, List.getElem?_map, List.getElem?_modify]
  cases vertices[i]? with
  | none => rfl
  | some v =>
    by_cases hi : vertex = i
    · simp [hi, Vertex.project, ht, Vertex.setProperty, Record.erase_insert]
    · simp [hi]

theorem project_of_not_mem (ht : Relation.type ∉ dropped) (v : Vertex) : v.project dropped = v :=
  if_neg ht

theorem Projects.apply (h : g.Projects dropped g') {keep : Relation → Bool}
    (hkeep : ∀ relation, keep relation = true ↔ relation ∉ dropped) (change : Change) :
    (change.apply g).Projects dropped ((Change.image? keep id change).elim g' (·.apply g')) := by
  cases change with
  | edge relation source target =>
    have hedge := filter_arc? dropped g.idAt? relation source target
    by_cases hrel : keep relation = true
    · rw [if_neg ((hkeep relation).1 hrel)] at hedge
      rw [Change.image?, if_pos hrel, Option.elim_some, id, id]
      refine ⟨?_, ?_⟩
      · rw [Change.apply, Change.apply, vertices_link, vertices_link, h.vertices]
      · rw [arcs_apply, arcs_apply, List.filter_append, hedge, h.arcs, Projects.idAt? h]
    · rw [if_pos (not_not.1 fun hnot => hrel ((hkeep relation).2 hnot))] at hedge
      rw [Change.image?, if_neg hrel, Option.elim_none]
      refine ⟨?_, ?_⟩
      · rw [Change.apply, vertices_link, h.vertices]
      · rw [arcs_apply, List.filter_append, hedge, h.arcs, List.append_nil]
  | reference vertex names =>
    by_cases ht : keep .type = true
    · have hproject := project_of_not_mem ((hkeep .type).1 ht)
      rw [Change.image?, if_pos ht, Option.elim_some, id]
      refine ⟨?_, h.arcs⟩
      have hvertices := h.vertices
      simp only [hproject, List.map_id'] at hvertices ⊢
      simp only [Change.apply, PropertyGraph.setVertexProperty, Array.toList_modify, hvertices]
    · rw [Change.image?, if_neg ht, Option.elim_none]
      refine ⟨?_, h.arcs⟩
      rw [Change.apply, PropertyGraph.setVertexProperty, Array.toList_modify,
        map_project_modify (not_not.1 fun hnot => ht ((hkeep .type).2 hnot)), h.vertices]

theorem Projects.foldl_apply (h : g.Projects dropped g') {keep : Relation → Bool}
    (hkeep : ∀ relation, keep relation = true ↔ relation ∉ dropped) (changes : List Change) :
    (changes.foldl Change.apply g).Projects dropped
      ((changes.filterMap (Change.image? keep id)).foldl Change.apply g') := by
  induction changes generalizing g g' with
  | nil => exact h
  | cons change rest ih =>
    have hstep := Projects.apply h hkeep change
    rw [List.foldl_cons]
    cases himage : Change.image? keep id change with
    | none =>
      rw [himage] at hstep
      rw [List.filterMap_cons_none himage]
      exact ih hstep
    | some image =>
      rw [himage] at hstep
      rw [List.filterMap_cons_some himage, List.foldl_cons]
      exact ih hstep

end EdgeWalk

namespace Conversion

open Attempt EdgeWalk

/-! ## Vertices without a reference -/

theorem ne_reference_of_mem_properties {n : Nat} {a : Ast n} {i : Fin n} {extra : Record String}
    (hextra : ∀ e ∈ extra.entries, e.1 ∉ PropertyName.reserved) :
    ∀ e ∈ (properties a i extra).entries, e.1 ≠ PropertyName.reference := by
  intro e he heq
  rcases Record.fst_mem_of_mem_foldl_insert Value.text he with hown | hmem
  · rcases Record.fst_mem_of_mem_insert hown with htext | hown
    · exact absurd (htext.symm.trans heq) (by decide)
    · have htype : ∀ {value : Value},
          e ∈ ((∅ : Properties).insert PropertyName.type value).entries → False := by
        intro value hown
        rcases Record.fst_mem_of_mem_insert hown with htype | hnone
        · exact absurd (htype.symm.trans heq) (by decide)
        · cases hnone
      cases hparent : a.parent? i with
      | none =>
        rw [hparent] at hown
        exact htype hown
      | some parent =>
        rw [hparent] at hown
        rcases Record.fst_mem_of_mem_insert hown with hkind | hown
        · exact absurd (hkind.symm.trans heq) (by decide)
        · exact htype hown
  · obtain ⟨entry, hentry, hname⟩ := List.mem_map.1 hmem
    refine hextra entry hentry ?_
    rw [hname, heq]
    decide

variable {n m : Nat} {a : Ast n} {b : Ast m} {keep : Relation → Bool} {source : AttributeSource n}
  {source' : AttributeSource m}

theorem projects_of_takesUp {nodes : List (Fin n)} {c : Conversion} (dropped : List Relation)
    (h : TakesUp a source nodes ∅ c)
    (hextra : ∀ i ∈ nodes, ∀ e ∈ (extraOf source i).entries, e.1 ∉ PropertyName.reserved) :
    c.graph.Projects dropped c.graph := by
  constructor
  case vertices =>
    have hsame : ∀ v ∈ c.graph.vertices.toList, v.project dropped = v := by
      intro v hv
      rw [h.vertices] at hv
      obtain ⟨x, hx, rfl⟩ := List.mem_map.1 hv
      have hreference := ne_reference_of_mem_properties (a := a) (i := x.1)
        (hextra x.1 (List.fst_mem_of_mem_zipIdx hx))
      unfold Vertex.project
      rw [Record.erase_of_forall_ne hreference, ite_self]
    rw [List.map_congr_left hsame, List.map_id']
  case arcs =>
    rw [h.arcs]
    rfl

/-- **Fewer links.** Where a structure shows but for the links of some relations, its graph shows
without what stands for these. -/
theorem exists_graphOf_image (f : Ast.Image keep a b) {dropped : List Relation}
    (hkeep : ∀ relation, keep relation = true ↔ relation ∉ dropped)
    (hstructural : Relation.structural ∉ dropped)
    (hsource : ∀ i, source' (f.node i) = source i) {root : Fin n} {g : PropertyGraph}
    (h : graphOf a source root = .ok g) :
    ∃ g', graphOf b source' (f.node root) = .ok g' ∧ g.Projects dropped g' := by
  obtain ⟨c', hadd, rfl⟩ := map_eq_ok_iff.1 h
  obtain ⟨c, changes, hvertices, hchanges, rfl⟩ := add_eq_ok_iff.1 hadd
  have hkeeps := (hkeep .structural).2 hstructural
  have hextra : ∀ i ∈ a.preorder root, ∀ e ∈ (extraOf source i).entries,
      e.1 ∉ PropertyName.reserved := by
    intro i hi
    obtain ⟨-, -, husable⟩ := exists_foldlM_addVertex_iff.1 ⟨c, hvertices⟩
    obtain ⟨extra, hsome, hfree⟩ := husable i hi
    rwa [extraOf, hsome]
  -- The image is taken up with the same vertices, and its edge walk makes the changes that remain.
  obtain ⟨d, hd, hshown⟩ :=
    ((shown_empty f).follows_foldlM_addVertex hsource (a.preorder root)).ok c hvertices
  have hcache : CacheImage f False id (c.handles[·]?) (d.handles[·]?) :=
    hshown.cacheImage fun hfalse => hfalse.elim
  have hshows := (shows_changes hcache hkeeps root).1 changes hchanges
  have hprojects := projects_of_takesUp dropped (takesUp_of_foldlM hvertices) hextra
  rw [← f.preorder_eq hkeeps] at hd
  refine ⟨_, map_eq_ok_iff.2 ⟨_, add_eq_ok_iff.2 ⟨d, _, hd, hshows, rfl⟩, rfl⟩, ?_⟩
  change (changes.foldl Change.apply c.graph).Projects dropped
    ((changes.filterMap (Change.image? keep id)).foldl Change.apply d.graph)
  rw [hshown.graph]
  exact Projects.foldl_apply hprojects hkeep changes

end Conversion

end CodeGraph

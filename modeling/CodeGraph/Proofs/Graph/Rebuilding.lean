import CodeGraph.Proofs.Graph.RoundTrip

/-!
# Graphs rebuilt from documents

A document is refused if and only if some edge has an end that is no vertex, and the report names
the first such edge (`failure?_toGraph`). A graph that is made from a document has its vertices and
edges, also if ids repeat (`ofGraph_of_toGraph`). Where they do not, each edge is joined to the
vertices that it had (`foldlM_joinEdge_edges`), so that the graph rebuilt from the document of a
graph answers every query as that does (`toGraph_inverse`).
-/

namespace CodeGraph

open Attempt

/-! ## Ids that are found -/

namespace PropertyGraph

variable {g g' : PropertyGraph}

/-- Whether both ends of an edge are ids of vertices. -/
def Joins (g : PropertyGraph) (e : Edge) : Prop :=
  (∃ handle, g.idAt? handle = some e.source) ∧ ∃ handle, g.idAt? handle = some e.target

theorem exists_idAt?_iff {id : Nat} :
    (∃ handle, g.idAt? handle = some id) ↔ ∃ v ∈ g.vertices.toList, v.id = id := by
  constructor
  · rintro ⟨handle, h⟩
    obtain ⟨v, hv, hid⟩ := Option.map_eq_some_iff.1 h
    exact ⟨v, Array.mem_toList_iff.2 (Array.mem_of_getElem? hv), hid⟩
  · rintro ⟨v, hv, rfl⟩
    exact exists_idAt?_of_mem hv

theorem Indexed.getElem?_eq (h : g.Indexed) (h' : g'.Indexed) (hid : g'.idAt? = g.idAt?)
    (id : Nat) : g'.handles[id]? = g.handles[id]? := by
  cases hold : g.handles[id]? with
  | none =>
    rw [Option.eq_none_iff_forall_ne_some]
    intro handle hhandle
    have hfound := h'.found hhandle
    rw [hid] at hfound
    obtain ⟨last, hlast, -⟩ := h.last hfound
    rw [hold] at hlast
    cases hlast
  | some handle =>
    have hfound := h.found hold
    rw [← hid] at hfound
    obtain ⟨last, hlast, hle⟩ := h'.last hfound
    -- Each index leads to the last vertex, so that neither handle is before the other.
    have hback := h'.found hlast
    rw [hid] at hback
    obtain ⟨other, hother, hge⟩ := h.last hback
    have heq : handle = other := Option.some.inj (hold.symm.trans hother)
    have hsame : last = handle := by omega
    rw [hlast, hsame]

theorem Indexed.getElem?_of_nodup (h : g.Indexed)
    (hnodup : (g.vertices.toList.map (·.id)).Nodup) {handle id : Nat}
    (hid : g.idAt? handle = some id) : g.handles[id]? = some handle := by
  have hids : ∀ k : Nat, (g.vertices.toList.map (·.id))[k]? = g.idAt? k := fun k => by
    rw [List.getElem?_map, Array.getElem?_toList, idAt?]
  obtain ⟨last, hlast, -⟩ := h.last hid
  have hlt : handle < (g.vertices.toList.map (·.id)).length := by
    rw [List.length_map, Array.length_toList]
    exact lt_size_of_idAt? hid
  have heq : handle = last := by
    apply (List.getElem?_inj hlt hnodup).1
    rw [hids, hids, hid, h.found hlast]
  rw [hlast, heq]

end PropertyGraph

/-! ## Joining edges -/

namespace GraphDocument

open PropertyGraph

variable {g : PropertyGraph} {d : GraphDocument}

theorem joinEdge_of_not_joins (h : g.Indexed) {e : Edge} (he : ¬ g.Joins e) :
    joinEdge g e = .error e := by
  unfold joinEdge
  cases hsource : g.handles[e.source]? with
  | none => rfl
  | some tail =>
    cases htarget : g.handles[e.target]? with
    | none => rfl
    | some head => exact absurd ⟨⟨tail, h.found hsource⟩, head, h.found htarget⟩ he

theorem failure?_foldlM_joinEdge (h : g.Indexed) {joined : Edge → Bool}
    (hjoined : ∀ e, joined e = true ↔ g.Joins e) (es : List Edge) :
    failure? (es.foldlM joinEdge g) = es.find? fun e => !joined e := by
  induction es generalizing g with
  | nil => rfl
  | cons e rest ih =>
    rw [List.foldlM_cons, bind_eq, List.find?_cons]
    cases he : joined e with
    | true =>
      have hends := (hjoined e).1 he
      obtain ⟨g₁, hjoin, hvertices, hhandles, -⟩ := exists_joinEdge h hends.1 hends.2
      have hid : g₁.idAt? = g.idAt? := idAt?_congr hvertices
      rw [hjoin, ok_bind]
      refine ih (h.of_idAt? hid hhandles) fun x => ?_
      rw [hjoined, PropertyGraph.Joins, PropertyGraph.Joins, hid]
    | false =>
      have hbad : ¬ g.Joins e := fun hends => by
        rw [(hjoined e).2 hends] at he
        cases he
      rw [joinEdge_of_not_joins h hbad]
      rfl

theorem joinEdge_edge (h : g.Indexed) (hnodup : (g.vertices.toList.map (·.id)).Nodup) {x : Arc}
    (htail : g.idAt? x.tail = some x.edge.source) (hhead : g.idAt? x.head = some x.edge.target) :
    joinEdge g x.edge = .ok { g with arcs := g.arcs.push x } := by
  unfold joinEdge
  rw [h.getElem?_of_nodup hnodup htail, h.getElem?_of_nodup hnodup hhead]
  simp only [addEdge_eq, htail, hhead]

theorem foldlM_joinEdge_edges (h : g.Indexed) (hnodup : (g.vertices.toList.map (·.id)).Nodup)
    {arcs : List Arc} (hends : ∀ x ∈ arcs, g.idAt? x.tail = some x.edge.source ∧
      g.idAt? x.head = some x.edge.target) :
    (arcs.map (·.edge)).foldlM joinEdge g = .ok { g with arcs := g.arcs ++ arcs } := by
  induction arcs generalizing g with
  | nil => simp [pure, Except.pure]
  | cons x rest ih =>
    obtain ⟨⟨htail, hhead⟩, hrest⟩ := List.forall_mem_cons.1 hends
    have hnext : Indexed { g with arcs := g.arcs.push x } := h.of_idAt? rfl rfl
    rw [List.map_cons, List.foldlM_cons, joinEdge_edge h hnodup htail hhead, bind_eq, ok_bind,
      ih hnext hnodup hrest]
    simp

/-! ## Documents -/

/-- Whether both ends of an edge are vertices of the document. -/
def Joins (d : GraphDocument) (e : Edge) : Prop :=
  (∃ v ∈ d.vertices, v.id = e.source) ∧ ∃ v ∈ d.vertices, v.id = e.target

instance (d : GraphDocument) : DecidablePred d.Joins := fun _ =>
  inferInstanceAs (Decidable (_ ∧ _))

theorem failure?_toGraph (d : GraphDocument) :
    failure? d.toGraph = d.edges.find? fun e => !decide (d.Joins e) := by
  have hvertices : (d.vertices.foldl PropertyGraph.addVertex ∅).vertices.toList = d.vertices :=
    vertices_foldl_addVertex d.vertices ∅
  refine failure?_foldlM_joinEdge (indexed_foldl_addVertex d.vertices indexed_empty) (fun e => ?_) _
  rw [decide_eq_true_iff, PropertyGraph.Joins, exists_idAt?_iff, exists_idAt?_iff, hvertices, Joins]

theorem toGraph_eq_error_iff {e : Edge} :
    d.toGraph = .error e ↔ ∃ before after, d.edges = before ++ e :: after ∧
      (∀ x ∈ before, d.Joins x) ∧ ¬ d.Joins e := by
  rw [← failure?_eq_some_iff, failure?_toGraph, List.find?_eq_some_iff_append]
  simp only [Bool.not_eq_true', decide_eq_false_iff_not, Bool.not_not, decide_eq_true_eq]
  constructor
  · rintro ⟨hbad, before, after, hsplit, hbefore⟩
    exact ⟨before, after, hsplit, hbefore, hbad⟩
  · rintro ⟨before, after, hsplit, hbefore, hbad⟩
    exact ⟨hbad, before, after, hsplit, hbefore⟩

theorem exists_toGraph_eq_error_iff :
    (∃ e, d.toGraph = .error e) ↔ ∃ e ∈ d.edges, ¬ d.Joins e := by
  simp only [← failure?_eq_some_iff, failure?_toGraph, ← Option.isSome_iff_exists,
    List.find?_isSome, Bool.not_eq_true', decide_eq_false_iff_not]

theorem ofGraph_of_toGraph (h : d.toGraph = .ok g) :
    (ofGraph g).vertices = d.vertices ∧ (ofGraph g).edges = d.edges := by
  have hvertices : (d.vertices.foldl PropertyGraph.addVertex ∅).vertices.toList = d.vertices :=
    vertices_foldl_addVertex d.vertices ∅
  have harcs : (d.vertices.foldl PropertyGraph.addVertex ∅).edges.toList = [] := by
    rw [PropertyGraph.edges, arcs_foldl_addVertex, Array.toList_map]
    rfl
  have hjoins : ∀ e ∈ d.edges, d.Joins e := by
    intro e he
    by_contra hbad
    obtain ⟨x, hx⟩ := exists_toGraph_eq_error_iff.2 ⟨e, he, hbad⟩
    rw [h] at hx
    cases hx
  obtain ⟨g', hgraph, hsame, hedges⟩ := exists_foldlM_joinEdge
    (indexed_foldl_addVertex d.vertices indexed_empty) d.edges fun e he => by
      rw [exists_idAt?_iff, exists_idAt?_iff, hvertices]
      exact hjoins e he
  obtain rfl : g' = g := Except.ok.inj (hgraph.symm.trans h)
  constructor
  · change g'.vertices.toList = d.vertices
    rw [hsame, hvertices]
  · change g'.edges.toList = d.edges
    rw [hedges, harcs, List.nil_append]

end GraphDocument

/-! ## Graphs -/

namespace PropertyGraph

open GraphDocument

/-- Whether two graphs answer every query alike. -/
structure AnswersAs (g g' : PropertyGraph) : Prop where
  vertexById? : ∀ id, g.vertexById? id = g'.vertexById? id
  edgesFrom : ∀ id, g.edgesFrom id = g'.edgesFrom id
  edgesTo : ∀ id, g.edgesTo id = g'.edgesTo id
  hasEdge : ∀ source target label, g.hasEdge source target label = g'.hasEdge source target label
  verticesWhere : ∀ name value, g.verticesWhere name value = g'.verticesWhere name value
  edgesLabeled : ∀ label, g.edgesLabeled label = g'.edgesLabeled label
  labelCounts : g.labelCounts = g'.labelCounts

variable {g g' : PropertyGraph}

/-- What a graph answers is told by its vertices, its arcs and where its index leads. -/
theorem answersAs_of_eq (hvertices : g.vertices = g'.vertices) (harcs : g.arcs = g'.arcs)
    (hindex : ∀ id : Nat, g.handles[id]? = g'.handles[id]?) : g.AnswersAs g' := by
  have hfrom : ∀ id, g.edgesFrom id = g'.edgesFrom id := fun id => by
    unfold PropertyGraph.edgesFrom
    rw [hindex, harcs]
  have hedges : g.edges = g'.edges := by
    unfold PropertyGraph.edges
    rw [harcs]
  constructor
  case vertexById? =>
    intro id
    unfold PropertyGraph.vertexById?
    rw [hindex, hvertices]
  case edgesFrom => exact hfrom
  case edgesTo =>
    intro id
    unfold PropertyGraph.edgesTo
    rw [hindex, harcs]
  case hasEdge =>
    intro source target label
    unfold PropertyGraph.hasEdge
    rw [hfrom]
  case verticesWhere =>
    intro name value
    unfold PropertyGraph.verticesWhere
    rw [hvertices]
  case edgesLabeled =>
    intro label
    unfold PropertyGraph.edgesLabeled
    rw [hedges]
  case labelCounts =>
    unfold PropertyGraph.labelCounts
    rw [hedges]

theorem Linked.answersAs_of_toGraph (h : g.Linked) (hnodup : (g.vertices.toList.map (·.id)).Nodup)
    (hgraph : (ofGraph g).toGraph = .ok g') : g'.AnswersAs g := by
  have hvertices : (g.vertices.toList.foldl PropertyGraph.addVertex ∅).vertices = g.vertices :=
    Array.toList_inj.1 (vertices_foldl_addVertex g.vertices.toList ∅)
  have harcs : (g.vertices.toList.foldl PropertyGraph.addVertex ∅).arcs = #[] :=
    arcs_foldl_addVertex g.vertices.toList ∅
  have hindexed := indexed_foldl_addVertex g.vertices.toList indexed_empty
  generalize hbare : g.vertices.toList.foldl PropertyGraph.addVertex ∅ = bare
    at hvertices harcs hindexed
  have hid : bare.idAt? = g.idAt? := idAt?_congr hvertices
  have hends : ∀ x ∈ g.arcs.toList, bare.idAt? x.tail = some x.edge.source ∧
      bare.idAt? x.head = some x.edge.target := by
    intro x hx
    obtain ⟨k, hk⟩ := List.mem_iff_getElem?.1 hx
    rw [hid]
    exact h.ends ((Array.getElem?_toList ..).symm.trans hk)
  have hjoined := foldlM_joinEdge_edges hindexed (by rwa [hvertices]) hends
  rw [GraphDocument.toGraph, ofGraph] at hgraph
  simp only [edges, Array.toList_map, hbare, hjoined, Except.ok.injEq] at hgraph
  subst hgraph
  refine answersAs_of_eq hvertices ?_ fun id => h.indexed.getElem?_eq hindexed hid id
  simp [harcs]

/-- **Documents and graphs are inverse to each other.** A document becomes a graph unless some edge
has an end that is no vertex, and then the report names the first such edge; the document of the
graph has the same vertices and edges. The document of a graph that edits made becomes a graph
again, which answers every query as the first if no id repeats. -/
theorem toGraph_inverse (d : GraphDocument) (edits : List Edit) :
    ((∃ e, d.toGraph = .error e) ↔ ∃ e ∈ d.edges, ¬ d.Joins e) ∧
    (∀ file message : String,
      d.toGraph.mapError (fun e => (ImportError.unknownVertex e).message file) = .error message ↔
        ∃ before e after, d.edges = before ++ e :: after ∧ (∀ x ∈ before, d.Joins x) ∧
          ¬ d.Joins e ∧
          message = s!"edge {e.label} references unknown vertex ({e.source} -> {e.target})") ∧
    (∀ g, d.toGraph = .ok g → (ofGraph g).vertices = d.vertices ∧ (ofGraph g).edges = d.edges) ∧
    ∃ g, (ofGraph (ofEdits edits)).toGraph = .ok g ∧
      (((ofEdits edits).vertices.toList.map (·.id)).Nodup → g.AnswersAs (ofEdits edits)) := by
  refine ⟨exists_toGraph_eq_error_iff, fun file message => ?_, fun g => ofGraph_of_toGraph, ?_⟩
  · have hmessage : d.toGraph.mapError (fun e => (ImportError.unknownVertex e).message file) =
        .error message ↔ ∃ e, d.toGraph = .error e ∧
          message = s!"edge {e.label} references unknown vertex ({e.source} -> {e.target})" := by
      cases d.toGraph with
      | ok g => simp [Except.mapError]
      | error x =>
        constructor
        · intro heq
          exact ⟨x, rfl, (Except.error.inj heq).symm⟩
        · rintro ⟨e, heq, rfl⟩
          cases heq
          rfl
    rw [hmessage]
    simp only [toGraph_eq_error_iff]
    constructor
    · rintro ⟨e, ⟨before, after, hsplit, hbefore, hbad⟩, htext⟩
      exact ⟨before, e, after, hsplit, hbefore, hbad, htext⟩
    · rintro ⟨before, e, after, hsplit, hbefore, hbad, htext⟩
      exact ⟨e, ⟨before, after, hsplit, hbefore, hbad⟩, htext⟩
  · obtain ⟨g, hgraph, -⟩ := (linked_ofEdits edits).exists_toGraph
    exact ⟨g, hgraph, fun hnodup => (linked_ofEdits edits).answersAs_of_toGraph hnodup hgraph⟩

/-- A vertex with a loop, and an edge to no vertex. -/
def looseEdge : GraphDocument := ⟨1, [⟨5, ∅⟩], [⟨"A", 5, 5, ∅⟩, ⟨"B", 5, 7, ∅⟩]⟩

/-- Vertices with ids in no order, an edge between them, one back and a loop. -/
def loopEdits : List Edit :=
  [.addVertex 7 ∅, .addVertex 5 ∅, .addEdge 0 1 "A" ∅, .addEdge 1 0 "A" ∅, .addEdge 0 0 "B" ∅]

theorem toGraph_inverse_loopEdits :
    looseEdge.toGraph.mapError (fun e => (ImportError.unknownVertex e).message "g.json") =
      .error "edge B references unknown vertex (5 -> 7)" ∧
    ((ofEdits loopEdits).vertices.toList.map (·.id)).Nodup ∧
    ∃ g, (ofGraph (ofEdits loopEdits)).toGraph = .ok g ∧
      g.edgesFrom 7 = [⟨"A", 7, 5, ∅⟩, ⟨"B", 7, 7, ∅⟩] := by
  have hnodup : ((ofEdits loopEdits).vertices.toList.map (·.id)).Nodup := by decide
  obtain ⟨-, hmessage, -, g, hgraph, hanswers⟩ := toGraph_inverse looseEdge loopEdits
  refine ⟨(hmessage _ _).2 ?_, hnodup, g, hgraph, ?_⟩
  · exact ⟨[⟨"A", 5, 5, ∅⟩], ⟨"B", 5, 7, ∅⟩, [], rfl, by decide, by decide, by decide⟩
  · rw [(hanswers hnodup).edgesFrom]
    decide

end PropertyGraph

end CodeGraph

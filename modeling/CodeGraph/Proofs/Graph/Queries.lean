import CodeGraph.Proofs.Graph.Rebuilding
import CodeGraph.Proofs.Lists
import CodeGraph.Proofs.Record
import Mathlib.Algebra.BigOperators.Group.List.Lemmas
import Mathlib.Algebra.GroupWithZero.Nat

/-!
# What the queries of a graph say

A graph keeps its edges in order of creation, an index of its vertices by id, and, where it is
stored, lists of the edges at each vertex. The queries go by all three. For every graph that edits
make they say what the lists of vertices and edges say (`queriesAgree_ofEdits`), also if ids repeat:
an id stands for the vertex that was added last under it.
-/

namespace CodeGraph.PropertyGraph

variable {g : PropertyGraph}

/-! ## The vertex of an id -/

/-- Whether the vertex with a handle has an id, and none that was added later has it. -/
def LastUnder (g : PropertyGraph) (id handle : Nat) : Prop :=
  g.idAt? handle = some id ∧ ∀ later, handle < later → g.idAt? later ≠ some id

theorem Indexed.getElem?_eq_some_iff (h : g.Indexed) {id handle : Nat} :
    g.handles[id]? = some handle ↔ g.LastUnder id handle := by
  constructor
  · intro hhandle
    refine ⟨h.found hhandle, fun later hlater hid => ?_⟩
    obtain ⟨last, hlast, hle⟩ := h.last hid
    rw [hhandle, Option.some.injEq] at hlast
    omega
  · rintro ⟨hid, hlast⟩
    obtain ⟨last, hfound, hle⟩ := h.last hid
    have hnot : ¬ handle < last := fun hlt => hlast last hlt (h.found hfound)
    have heq : last = handle := by omega
    rw [hfound, heq]

theorem Indexed.getElem?_eq_none_iff (h : g.Indexed) {id : Nat} :
    g.handles[id]? = none ↔ ∀ v ∈ g.vertices.toList, v.id ≠ id := by
  constructor
  · intro hnone v hv heq
    obtain ⟨handle, hid⟩ := exists_idAt?_iff.2 ⟨v, hv, heq⟩
    obtain ⟨last, hlast, -⟩ := h.last hid
    rw [hnone] at hlast
    cases hlast
  · intro hother
    rw [Option.eq_none_iff_forall_ne_some]
    intro handle hhandle
    obtain ⟨v, hv, heq⟩ := exists_idAt?_iff.1 ⟨handle, h.found hhandle⟩
    exact hother v hv heq

/-! ## The edges at a vertex -/

/-- The edges with a certain vertex at one end, in order of creation. -/
def edgesAt (g : PropertyGraph) (endOf : Arc → Nat) (handle : Nat) : List Edge :=
  (g.arcs.toList.filter (endOf · == handle)).map (·.edge)

theorem edgesFrom_eq (g : PropertyGraph) (id : Nat) :
    g.edgesFrom id = g.handles[id]?.elim [] (g.edgesAt Arc.tail) := by
  rw [edgesFrom]
  cases g.handles[id]? <;> rfl

theorem edgesTo_eq (g : PropertyGraph) (id : Nat) :
    g.edgesTo id = g.handles[id]?.elim [] (g.edgesAt Arc.head) := by
  rw [edgesTo]
  cases g.handles[id]? <;> rfl

theorem toList_edges (g : PropertyGraph) : g.edges.toList = g.arcs.toList.map (·.edge) := by
  rw [edges, Array.toList_map]

theorem edgesAt_sublist (g : PropertyGraph) (endOf : Arc → Nat) (handle : Nat) :
    (g.edgesAt endOf handle).Sublist g.edges.toList := by
  rw [toList_edges]
  exact List.filter_sublist.map _

section ends

variable {endOf : Arc → Nat} {idOf : Edge → Nat}

theorem Indexed.elim_edgesAt (h : g.Indexed) (hnodup : (g.vertices.toList.map (·.id)).Nodup)
    (hends : ∀ x ∈ g.arcs.toList, g.idAt? (endOf x) = some (idOf x.edge)) (id : Nat) :
    g.handles[id]?.elim [] (g.edgesAt endOf) = g.edges.toList.filter (idOf · == id) := by
  rw [toList_edges, List.filter_map]
  cases hid : g.handles[id]? with
  | none =>
    have hnone : g.arcs.toList.filter ((idOf · == id) ∘ (·.edge)) = [] := by
      rw [List.filter_eq_nil_iff]
      intro x hx heq
      obtain ⟨v, hv, hvid⟩ := exists_idAt?_iff.1 ⟨_, hends x hx⟩
      exact h.getElem?_eq_none_iff.1 hid v hv (hvid.trans (by simpa using heq))
    rw [hnone]
    rfl
  | some handle =>
    rw [Option.elim_some, edgesAt]
    congr 1
    refine List.filter_congr fun x hx => ?_
    show (endOf x == handle) = (idOf x.edge == id)
    rw [Bool.eq_iff_iff, beq_iff_eq, beq_iff_eq]
    constructor
    · intro heq
      have hfound := h.found hid
      rw [← heq, hends x hx] at hfound
      exact Option.some.inj hfound
    · intro heq
      have hhandle := h.getElem?_of_nodup hnodup (heq ▸ hends x hx)
      exact Option.some.inj (hhandle.symm.trans hid)

end ends

theorem Linked.edgesFrom_of_nodup (h : g.Linked) (hnodup : (g.vertices.toList.map (·.id)).Nodup)
    (id : Nat) : g.edgesFrom id = g.edges.toList.filter (·.source == id) := by
  rw [edgesFrom_eq]
  refine h.indexed.elim_edgesAt hnodup (fun x hx => ?_) id
  obtain ⟨k, hk⟩ := List.mem_iff_getElem?.1 hx
  exact (h.ends ((Array.getElem?_toList ..).symm.trans hk)).1

theorem Linked.edgesTo_of_nodup (h : g.Linked) (hnodup : (g.vertices.toList.map (·.id)).Nodup)
    (id : Nat) : g.edgesTo id = g.edges.toList.filter (·.target == id) := by
  rw [edgesTo_eq]
  refine h.indexed.elim_edgesAt hnodup (fun x hx => ?_) id
  obtain ⟨k, hk⟩ := List.mem_iff_getElem?.1 hx
  exact (h.ends ((Array.getElem?_toList ..).symm.trans hk)).2

theorem Linked.hasEdge_iff (h : g.Linked) (hnodup : (g.vertices.toList.map (·.id)).Nodup)
    {source target : Nat} {label : String} :
    g.hasEdge source target label = true ↔
      ∃ e ∈ g.edges.toList, e.source = source ∧ e.target = target ∧ e.label = label := by
  rw [hasEdge, h.edgesFrom_of_nodup hnodup]
  simp only [List.any_eq_true, List.mem_filter, beq_iff_eq, Bool.and_eq_true, and_assoc]

/-! ## Edges that are stored in another order -/

/-- Whether the handles of the edges at each vertex are listed, in any order and each once. -/
structure ListsEdges (g : PropertyGraph) (endOf : Arc → Nat) (listing : Nat → List Nat) :
    Prop where
  nodup : ∀ handle, (listing handle).Nodup
  mem : ∀ handle k, k ∈ listing handle ↔ ∃ x, g.arcs[k]? = some x ∧ endOf x = handle

/-- The edges at the vertex of an id as they are listed, put in order by their handles. -/
def directedEdges (g : PropertyGraph) (listing : Nat → List Nat) (id : Nat) : List Edge :=
  match g.handles[id]? with
  | none => []
  | some handle => ((listing handle).mergeSort (· ≤ ·)).filterMap (g.edges[·]?)

/-- The handles of the edges with a certain vertex at one end, in ascending order. -/
def edgeHandlesAt (g : PropertyGraph) (endOf : Arc → Nat) (handle : Nat) : List Nat :=
  (List.range g.arcs.size).filter fun k => g.arcs[k]?.any (endOf · == handle)

variable {endOf : Arc → Nat} {listing : Nat → List Nat} {handle : Nat}

theorem mem_edgeHandlesAt {k : Nat} :
    k ∈ g.edgeHandlesAt endOf handle ↔ ∃ x, g.arcs[k]? = some x ∧ endOf x = handle := by
  rw [edgeHandlesAt, List.mem_filter, List.mem_range, Option.any_eq_true]
  simp only [beq_iff_eq]
  constructor
  · rintro ⟨-, x, hx, hend⟩
    exact ⟨x, hx, hend⟩
  · rintro ⟨x, hx, hend⟩
    exact ⟨(Array.getElem?_eq_some_iff.1 hx).1, x, hx, hend⟩

theorem nodup_edgeHandlesAt : (g.edgeHandlesAt endOf handle).Nodup := List.nodup_range.filter _

theorem filterMap_edgeHandlesAt :
    (g.edgeHandlesAt endOf handle).filterMap (g.edges[·]?) = g.edgesAt endOf handle := by
  rw [edgeHandlesAt, edgesAt, List.filterMap_filter, ← Array.length_toList]
  conv_rhs => rw [← Lists.filterMap_getElem?_range g.arcs.toList]
  rw [List.filter_filterMap, List.map_filterMap]
  refine List.filterMap_congr fun k _ => ?_
  rw [edges, Array.getElem?_map, Array.getElem?_toList]
  cases g.arcs[k]? with
  | none => rfl
  | some x => by_cases hend : endOf x = handle <;> simp [Option.filter_some, hend]

theorem listsEdges_reverse (g : PropertyGraph) (endOf : Arc → Nat) :
    g.ListsEdges endOf fun handle => (g.edgeHandlesAt endOf handle).reverse where
  nodup _ := List.nodup_reverse.2 nodup_edgeHandlesAt
  mem _ _ := List.mem_reverse.trans mem_edgeHandlesAt

/-- Sorting a listing brings back the order of creation. -/
theorem ListsEdges.mergeSort_eq (h : g.ListsEdges endOf listing) (handle : Nat) :
    (listing handle).mergeSort (· ≤ ·) = g.edgeHandlesAt endOf handle := by
  refine List.Perm.eq_of_pairwise (fun j k _ _ => Nat.le_antisymm) ?_ ?_ ?_
  · have hpairwise : ((listing handle).mergeSort (· ≤ ·)).Pairwise fun j k =>
        decide (j ≤ k) = true :=
      List.pairwise_mergeSort (fun i j k hij hjk => by simp only [decide_eq_true_eq] at *; omega)
        (fun j k => by simp only [Bool.or_eq_true, decide_eq_true_eq]; omega) (listing handle)
    exact hpairwise.imp of_decide_eq_true
  · exact (List.pairwise_lt_range.filter _).imp Nat.le_of_lt
  · refine (List.mergeSort_perm _ _).trans ?_
    rw [List.perm_ext_iff_of_nodup (h.nodup handle) nodup_edgeHandlesAt]
    exact fun k => (h.mem handle k).trans mem_edgeHandlesAt.symm

theorem ListsEdges.directedEdges_eq (h : g.ListsEdges endOf listing) (id : Nat) :
    g.directedEdges listing id = g.handles[id]?.elim [] (g.edgesAt endOf) := by
  rw [directedEdges]
  cases g.handles[id]? with
  | none => rfl
  | some handle => exact (congrArg _ (h.mergeSort_eq handle)).trans filterMap_edgeHandlesAt

/-! ## Edges by label -/

theorem get?_foldl_update (names : List String) (counts : Record Nat) (name : String) :
    (names.foldl (fun r x => r.update x 0 (· + 1)) counts).get? name =
      if name ∈ names then some ((counts.get? name).getD 0 + names.count name)
      else counts.get? name := by
  induction names generalizing counts with
  | nil => rfl
  | cons x rest ih =>
    rw [List.foldl_cons, ih, Record.update, Record.get?_insert]
    by_cases heq : x = name
    · subst heq
      by_cases hrest : x ∈ rest
      · simp [hrest]
        omega
      · simp [hrest, List.count_eq_zero.2 hrest]
    · simp [heq, Ne.symm heq]

/-- The labels of the edges, in order of creation. -/
def labels (g : PropertyGraph) : List String := g.edges.toList.map (·.label)

theorem length_edgesLabeled_eq (g : PropertyGraph) (label : String) :
    (g.edgesLabeled label).length = g.labels.count label := by
  rw [edgesLabeled, labels, List.count, List.countP_map, List.countP_eq_length_filter]
  rfl

theorem mem_labelCounts {label : String} {count : Nat} :
    (label, count) ∈ g.labelCounts.entries ↔
      label ∈ g.labels ∧ count = (g.edgesLabeled label).length := by
  have hfold : g.labelCounts = g.labels.foldl (fun r x => r.update x 0 (· + 1)) ∅ := by
    rw [labelCounts, labels, List.foldl_map, ← Array.foldl_toList]
  have hempty : (∅ : Record Nat).get? label = none := rfl
  rw [← Record.get?_eq_some_iff, hfold, get?_foldl_update, hempty, length_edgesLabeled_eq]
  by_cases hmem : label ∈ g.labels <;> simp [hmem, eq_comm]

theorem sum_labelCounts (g : PropertyGraph) :
    (g.labelCounts.entries.map (·.2)).sum = g.arcs.size := by
  have hcounts : g.labelCounts.entries.map (·.2) =
      (g.labelCounts.entries.map (·.1)).map fun label => g.labels.count label := by
    rw [List.map_map]
    refine List.map_congr_left fun e he => ?_
    rw [(mem_labelCounts.1 he).2, length_edgesLabeled_eq]
    rfl
  have hnodup : (g.labelCounts.entries.map (·.1)).Nodup := by
    rw [List.Nodup, List.pairwise_map]
    exact g.labelCounts.ascending.imp String.ne_of_lt
  have hperm : (g.labelCounts.entries.map (·.1)).Perm g.labels.dedup := by
    rw [List.perm_ext_iff_of_nodup hnodup (List.nodup_dedup _)]
    intro label
    rw [List.mem_dedup, List.mem_map]
    constructor
    · rintro ⟨e, he, rfl⟩
      exact (mem_labelCounts.1 he).1
    · intro hmem
      exact ⟨_, mem_labelCounts.2 ⟨hmem, rfl⟩, rfl⟩
  rw [hcounts, (hperm.map _).sum_eq, List.sum_map_count_dedup_eq_length, labels, edges]
  simp

/-! ## What edits add -/

/-- The id of the vertex that an edit adds. -/
def Edit.newId? : Edit → Option Nat
  | addVertex id _ => some id.toNat
  | _ => none

/-- The ends and the label of the edge that an edit adds. -/
def Edit.newEdge? : Edit → Option (Nat × Nat × String)
  | addEdge tail head label _ => some (tail, head, label)
  | _ => none

/-- Whether edges are only added between handles that the graph has by then. -/
def OwnHandles (g : PropertyGraph) : List Edit → Prop
  | [] => True
  | e :: rest => (∀ x ∈ e.newEdge?, x.1 < g.vertices.size ∧ x.2.1 < g.vertices.size) ∧
    OwnHandles (e.apply g) rest

theorem ids_apply (g : PropertyGraph) (e : Edit) :
    (e.apply g).vertices.toList.map (·.id) = g.vertices.toList.map (·.id) ++ e.newId?.toList := by
  cases e with
  | addVertex id properties => simp [Edit.apply, addVertex, Edit.newId?]
  | addEdge tail head label properties =>
    have hvertices : (g.addEdge tail head label properties).vertices = g.vertices := by
      rw [addEdge]
      split <;> rfl
    rw [Edit.apply, hvertices]
    exact (List.append_nil _).symm
  | setVertexProperty handle name value =>
    rw [Edit.apply]
    refine List.ext_getElem? fun k => ?_
    have hid := congrFun (idAt?_setVertexProperty g handle name value) k
    simpa [idAt?, Edit.newId?] using hid
  | setEdgeProperty handle name value => exact (List.append_nil _).symm

theorem ids_foldl_apply (g : PropertyGraph) (edits : List Edit) :
    (edits.foldl Edit.apply g).vertices.toList.map (·.id) =
      g.vertices.toList.map (·.id) ++ edits.filterMap Edit.newId? := by
  induction edits generalizing g with
  | nil => exact (List.append_nil _).symm
  | cons e rest ih =>
    rw [List.foldl_cons, ih, ids_apply, List.append_assoc]
    cases h : e.newId? <;> simp [h]

/-- What an edge is from its creation on. -/
def made (x : Arc) : Nat × Nat × String := (x.tail, x.head, x.edge.label)

theorem made_apply {e : Edit}
    (h : ∀ x ∈ e.newEdge?, x.1 < g.vertices.size ∧ x.2.1 < g.vertices.size) :
    (e.apply g).arcs.toList.map made = g.arcs.toList.map made ++ e.newEdge?.toList := by
  cases e with
  | addVertex id properties => exact (List.append_nil _).symm
  | addEdge tail head label properties =>
    obtain ⟨htail, hhead⟩ := h _ rfl
    rw [Edit.apply, addEdge, Array.getElem?_eq_getElem htail, Array.getElem?_eq_getElem hhead]
    simp [Edit.newEdge?, made]
  | setVertexProperty handle name value => exact (List.append_nil _).symm
  | setEdgeProperty handle name value =>
    rw [Edit.apply, setEdgeProperty]
    refine List.ext_getElem? fun k => ?_
    simp only [List.getElem?_map, Array.getElem?_toList, Array.getElem?_modify, Edit.newEdge?,
      Option.toList_none, List.append_nil]
    split
    · rw [Option.map_map]
      rfl
    · rfl

theorem made_foldl_apply {edits : List Edit} (h : g.OwnHandles edits) :
    (edits.foldl Edit.apply g).arcs.toList.map made =
      g.arcs.toList.map made ++ edits.filterMap Edit.newEdge? := by
  induction edits generalizing g with
  | nil => exact (List.append_nil _).symm
  | cons e rest ih =>
    rw [List.foldl_cons, ih h.2, made_apply h.1, List.append_assoc]
    cases hnew : e.newEdge? <;> simp [hnew]

/-! ## All queries -/

/-- Whether the queries of a graph say what its lists of vertices and edges say. -/
structure QueriesAgree (g : PropertyGraph) : Prop where
  present : ∀ v ∈ g.vertices.toList, ∃ handle, g.LastUnder v.id handle
  vertex : ∀ id handle, g.LastUnder id handle → g.vertexById? id = g.vertices[handle]?
  out : ∀ id handle, g.LastUnder id handle → g.edgesFrom id = g.edgesAt Arc.tail handle
  into : ∀ id handle, g.LastUnder id handle → g.edgesTo id = g.edgesAt Arc.head handle
  absent : ∀ id, (∀ v ∈ g.vertices.toList, v.id ≠ id) →
    g.vertexById? id = none ∧ g.edgesFrom id = [] ∧ g.edgesTo id = []
  inOrder : ∀ id, (g.edgesFrom id).Sublist g.edges.toList ∧ (g.edgesTo id).Sublist g.edges.toList
  /-- In whatever order the edges at a vertex are stored. -/
  stored : ∀ tails heads, g.ListsEdges Arc.tail tails → g.ListsEdges Arc.head heads → ∀ id,
    g.directedEdges tails id = g.edgesFrom id ∧ g.directedEdges heads id = g.edgesTo id
  distinct : (g.vertices.toList.map (·.id)).Nodup →
    (∀ id, g.edgesFrom id = g.edges.toList.filter (·.source == id) ∧
      g.edgesTo id = g.edges.toList.filter (·.target == id)) ∧
    ∀ source target label, g.hasEdge source target label = true ↔
      ∃ e ∈ g.edges.toList, e.source = source ∧ e.target = target ∧ e.label = label
  ascending : g.labelCounts.entries.Pairwise fun a b => a.1 < b.1
  counts : ∀ label count, (label, count) ∈ g.labelCounts.entries ↔
    (∃ e ∈ g.edges.toList, e.label = label) ∧ count = (g.edgesLabeled label).length
  total : (g.labelCounts.entries.map (·.2)).sum = g.arcs.size

theorem Linked.queriesAgree (h : g.Linked) : g.QueriesAgree := by
  have hindex := h.indexed
  constructor
  case present =>
    intro v hv
    obtain ⟨handle, hid⟩ := exists_idAt?_iff.2 ⟨v, hv, rfl⟩
    obtain ⟨last, hlast, -⟩ := hindex.last hid
    exact ⟨last, hindex.getElem?_eq_some_iff.1 hlast⟩
  case vertex =>
    intro id handle hlast
    rw [vertexById?, hindex.getElem?_eq_some_iff.2 hlast, Option.bind_some]
  case out =>
    intro id handle hlast
    rw [edgesFrom_eq, hindex.getElem?_eq_some_iff.2 hlast, Option.elim_some]
  case into =>
    intro id handle hlast
    rw [edgesTo_eq, hindex.getElem?_eq_some_iff.2 hlast, Option.elim_some]
  case absent =>
    intro id hother
    have hnone := hindex.getElem?_eq_none_iff.2 hother
    rw [vertexById?, edgesFrom_eq, edgesTo_eq, hnone]
    exact ⟨rfl, rfl, rfl⟩
  case inOrder =>
    intro id
    rw [edgesFrom_eq, edgesTo_eq]
    cases g.handles[id]? with
    | none => exact ⟨List.nil_sublist _, List.nil_sublist _⟩
    | some handle => exact ⟨g.edgesAt_sublist _ handle, g.edgesAt_sublist _ handle⟩
  case stored =>
    intro tails heads htails hheads id
    rw [htails.directedEdges_eq, hheads.directedEdges_eq, edgesFrom_eq, edgesTo_eq]
    exact ⟨rfl, rfl⟩
  case distinct =>
    intro hnodup
    refine ⟨fun id => ⟨h.edgesFrom_of_nodup hnodup id, h.edgesTo_of_nodup hnodup id⟩, ?_⟩
    exact fun source target label => h.hasEdge_iff hnodup
  case ascending => exact g.labelCounts.ascending
  case counts =>
    intro label count
    rw [mem_labelCounts, labels, List.mem_map]
  case total => exact g.sum_labelCounts

/-- **The queries of a graph.** The vertices and edges of a graph are those that edits added, in
their order, and its queries agree with them. -/
theorem queriesAgree_ofEdits (edits : List Edit) :
    (ofEdits edits).QueriesAgree ∧
    (ofEdits edits).vertices.toList.map (·.id) = edits.filterMap Edit.newId? ∧
    (OwnHandles ∅ edits →
      (ofEdits edits).arcs.toList.map made = edits.filterMap Edit.newEdge?) := by
  refine ⟨(linked_ofEdits edits).queriesAgree, ids_foldl_apply ∅ edits, fun h => ?_⟩
  exact made_foldl_apply h

/-- Two vertices with one id. There are edges at both of them, among them a loop and two edges that
are the same. -/
def shadowedEdits : List Edit :=
  [.addVertex 5 ∅, .addVertex 5 ∅, .addVertex 7 ∅, .addEdge 1 2 "CALLS" ∅, .addEdge 0 2 "CALLS" ∅,
    .addEdge 1 1 "STRUCTURAL" ∅, .addEdge 1 2 "CALLS" ∅, .setVertexProperty 1 "type" (.text "B")]

theorem queriesAgree_shadowedEdits :
    let g := ofEdits shadowedEdits
    g.LastUnder 5 1 ∧ (g.vertexById? 5).bind (·.kind?) = some "B" ∧
    g.edgesFrom 5 = [⟨"CALLS", 5, 7, ∅⟩, ⟨"STRUCTURAL", 5, 5, ∅⟩, ⟨"CALLS", 5, 7, ∅⟩] ∧
    g.directedEdges (fun handle => (g.edgeHandlesAt Arc.tail handle).reverse) 5 = g.edgesFrom 5 ∧
    ("CALLS", 3) ∈ g.labelCounts.entries ∧
    g.arcs.toList.map made =
      [(1, 2, "CALLS"), (0, 2, "CALLS"), (1, 1, "STRUCTURAL"), (1, 2, "CALLS")] := by
  intro g
  obtain ⟨hqueries, -, hmade⟩ := queriesAgree_ofEdits shadowedEdits
  have hsize : g.vertices.size = 3 := by decide
  have hlast : g.LastUnder 5 1 := by
    refine ⟨by decide, fun later hlater hid => ?_⟩
    obtain rfl : later = 2 := by
      have hlt := lt_size_of_idAt? hid
      omega
    exact absurd hid (by decide)
  have hhandles : OwnHandles ∅ shadowedEdits := by
    simp [OwnHandles, shadowedEdits, Edit.newEdge?, Edit.apply, addVertex, addEdge]
  refine ⟨hlast, ?_, ?_, ?_, ?_, hmade hhandles⟩
  · rw [hqueries.vertex 5 1 hlast]
    decide
  · rw [hqueries.out 5 1 hlast]
    decide
  · exact (hqueries.stored _ _ (g.listsEdges_reverse _) (g.listsEdges_reverse _) 5).1
  · rw [hqueries.counts, length_edgesLabeled_eq, labels, toList_edges]
    exact ⟨⟨⟨"CALLS", 5, 7, ∅⟩, by decide, rfl⟩, by decide⟩

end CodeGraph.PropertyGraph

import CodeGraph.Graph.Basic

/-!
# Graphs under edits

A graph grows by new vertices and edges, and properties of those that are there are set. Whatever
the edits, ids may repeat among them, the graph stays `Linked`: the index leads from an id to the
vertex added last under it, and edges know the ids of their ends. Every edit keeps this
(`Linked.apply`), so that it holds of every graph that edits make (`linked_ofEdits`).
-/

namespace CodeGraph.PropertyGraph

/-- The id of the vertex with a handle. -/
def idAt? (g : PropertyGraph) (handle : Nat) : Option Nat :=
  g.vertices[handle]?.map (·.id)

variable {g : PropertyGraph}

theorem lt_size_of_idAt? {handle id : Nat} (h : g.idAt? handle = some id) :
    handle < g.vertices.size := by
  obtain ⟨v, hv, -⟩ := Option.map_eq_some_iff.1 h
  exact (Array.getElem?_eq_some_iff.1 hv).1

theorem idAt?_congr {g' : PropertyGraph} (h : g'.vertices = g.vertices) : g'.idAt? = g.idAt? := by
  unfold idAt?
  rw [h]

/-! ## One edit -/

theorem idAt?_addVertex (g : PropertyGraph) (v : Vertex) (handle : Nat) :
    (g.addVertex v).idAt? handle =
      if handle = g.vertices.size then some v.id else g.idAt? handle := by
  unfold idAt? addVertex
  rw [Array.getElem?_push]
  split <;> rfl

theorem idAt?_addEdge (g : PropertyGraph) (tail head : Nat) (label : String)
    (properties : Properties) : (g.addEdge tail head label properties).idAt? = g.idAt? := by
  unfold addEdge
  split <;> rfl

theorem idAt?_setVertexProperty (g : PropertyGraph) (handle : Nat) (name : String)
    (value : Value) : (g.setVertexProperty handle name value).idAt? = g.idAt? := by
  funext other
  unfold idAt? setVertexProperty
  rw [Array.getElem?_modify]
  split
  · rw [Option.map_map]
    rfl
  · rfl

theorem addEdge_eq (g : PropertyGraph) (tail head : Nat) (label : String)
    (properties : Properties) :
    g.addEdge tail head label properties =
      match g.idAt? tail, g.idAt? head with
      | some source, some target =>
        { g with arcs := g.arcs.push ⟨tail, head, ⟨label, source, target, properties⟩⟩ }
      | _, _ => g := by
  unfold addEdge idAt?
  cases g.vertices[tail]? with
  | none => rfl
  | some source => cases g.vertices[head]? <;> rfl

/-- One call that changes a graph. -/
inductive Edit
  | addVertex (id : UInt64) (properties : Properties)
  | addEdge (tail head : Nat) (label : String) (properties : Properties)
  | setVertexProperty (handle : Nat) (name : String) (value : Value)
  | setEdgeProperty (handle : Nat) (name : String) (value : Value)

def Edit.apply (g : PropertyGraph) : Edit → PropertyGraph
  | addVertex id properties => g.addVertex ⟨id.toNat, properties⟩
  | addEdge tail head label properties => g.addEdge tail head label properties
  | setVertexProperty handle name value => g.setVertexProperty handle name value
  | setEdgeProperty handle name value => g.setEdgeProperty handle name value

/-- The graph that edits make out of nothing. -/
def ofEdits (edits : List Edit) : PropertyGraph := edits.foldl Edit.apply ∅

/-! ## The invariant -/

/-- The index leads from each id to the last vertex that has it. -/
structure Indexed (g : PropertyGraph) : Prop where
  found : ∀ {id handle : Nat}, g.handles[id]? = some handle → g.idAt? handle = some id
  last : ∀ {id handle : Nat}, g.idAt? handle = some id →
    ∃ last, g.handles[id]? = some last ∧ handle ≤ last

/-- Index and edges agree with the vertices, and ids have 64 bits. -/
structure Linked (g : PropertyGraph) : Prop where
  indexed : g.Indexed
  ids : ∀ {handle id : Nat}, g.idAt? handle = some id → id < UInt64.size
  ends : ∀ {k : Nat} {x : Arc}, g.arcs[k]? = some x →
    g.idAt? x.tail = some x.edge.source ∧ g.idAt? x.head = some x.edge.target

theorem indexed_empty : Indexed ∅ where
  found h := by
    change (∅ : Std.TreeMap Nat Nat)[_]? = some _ at h
    simp at h
  last h := absurd (lt_size_of_idAt? h) (Nat.not_lt_zero _)

theorem Indexed.of_idAt? (h : g.Indexed) {g' : PropertyGraph} (hid : g'.idAt? = g.idAt?)
    (hhandles : g'.handles = g.handles) : g'.Indexed := by
  constructor
  · rw [hid, hhandles]
    exact h.found
  · rw [hid, hhandles]
    exact h.last

theorem Indexed.addVertex (h : g.Indexed) (v : Vertex) : (g.addVertex v).Indexed := by
  have hhandles : ∀ id : Nat, (g.addVertex v).handles[id]? =
      if v.id = id then some g.vertices.size else g.handles[id]? := fun id => by
    simp only [PropertyGraph.addVertex, Std.TreeMap.getElem?_insert,
      Std.LawfulEqCmp.compare_eq_iff_eq]
  constructor
  case found =>
    intro id handle hhandle
    rw [hhandles] at hhandle
    rw [idAt?_addVertex]
    split at hhandle
    · next heq =>
      rw [if_pos (Option.some.inj hhandle).symm, heq]
    · have hold := h.found hhandle
      rwa [if_neg (Nat.ne_of_lt (lt_size_of_idAt? hold))]
  case last =>
    intro id handle hid
    have hle : handle ≤ g.vertices.size := by
      have := lt_size_of_idAt? hid
      unfold PropertyGraph.addVertex at this
      rw [Array.size_push] at this
      omega
    rw [hhandles]
    split
    · exact ⟨_, rfl, hle⟩
    · next hne =>
      rw [idAt?_addVertex] at hid
      split at hid
      · exact absurd (Option.some.inj hid) hne
      · exact h.last hid

theorem Linked.addVertex (h : g.Linked) {v : Vertex} (hv : v.id < UInt64.size) :
    (g.addVertex v).Linked where
  indexed := h.indexed.addVertex v
  ids := by
    intro handle id hid
    rw [idAt?_addVertex] at hid
    split at hid
    · exact Option.some.inj hid ▸ hv
    · exact h.ids hid
  ends := by
    have hkept : ∀ {handle id : Nat}, g.idAt? handle = some id →
        (g.addVertex v).idAt? handle = some id := fun hid => by
      rwa [idAt?_addVertex, if_neg (Nat.ne_of_lt (lt_size_of_idAt? hid))]
    intro k x hx
    obtain ⟨htail, hhead⟩ := h.ends hx
    exact ⟨hkept htail, hkept hhead⟩

theorem Linked.of_idAt? (h : g.Linked) {g' : PropertyGraph} (hid : g'.idAt? = g.idAt?)
    (hhandles : g'.handles = g.handles)
    (hends : ∀ {k : Nat} {x : Arc}, g'.arcs[k]? = some x →
      g.idAt? x.tail = some x.edge.source ∧ g.idAt? x.head = some x.edge.target) : g'.Linked := by
  refine ⟨h.indexed.of_idAt? hid hhandles, ?_, ?_⟩
  · rw [hid]
    exact h.ids
  · rw [hid]
    exact hends

theorem Linked.addEdge (h : g.Linked) (tail head : Nat) (label : String)
    (properties : Properties) : (g.addEdge tail head label properties).Linked := by
  rw [addEdge_eq]
  split
  · next source target htail hhead =>
    refine h.of_idAt? rfl rfl ?_
    intro k x hx
    rw [Array.getElem?_push] at hx
    split at hx
    · cases hx
      exact ⟨htail, hhead⟩
    · exact h.ends hx
  · exact h

theorem Linked.setVertexProperty (h : g.Linked) (handle : Nat) (name : String) (value : Value) :
    (g.setVertexProperty handle name value).Linked :=
  h.of_idAt? (idAt?_setVertexProperty g handle name value) rfl h.ends

theorem Linked.setEdgeProperty (h : g.Linked) (handle : Nat) (name : String) (value : Value) :
    (g.setEdgeProperty handle name value).Linked := by
  refine h.of_idAt? rfl rfl ?_
  intro k x hx
  unfold PropertyGraph.setEdgeProperty at hx
  rw [Array.getElem?_modify] at hx
  split at hx
  · obtain ⟨y, hy, rfl⟩ := Option.map_eq_some_iff.1 hx
    have hold := h.ends hy
    exact hold
  · exact h.ends hx

theorem Linked.apply (h : g.Linked) (edit : Edit) : (edit.apply g).Linked := by
  cases edit with
  | addVertex id properties => exact h.addVertex id.toNat_lt
  | addEdge tail head label properties => exact h.addEdge tail head label properties
  | setVertexProperty handle name value => exact h.setVertexProperty handle name value
  | setEdgeProperty handle name value => exact h.setEdgeProperty handle name value

theorem linked_empty : Linked ∅ where
  indexed := indexed_empty
  ids h := absurd (lt_size_of_idAt? h) (Nat.not_lt_zero _)
  ends h := absurd (Array.getElem?_eq_some_iff.1 h).1 (Nat.not_lt_zero _)

theorem Linked.foldl_apply (h : g.Linked) (edits : List Edit) :
    (edits.foldl Edit.apply g).Linked := by
  induction edits generalizing g with
  | nil => exact h
  | cons edit rest ih => exact ih (h.apply edit)

theorem linked_ofEdits (edits : List Edit) : (ofEdits edits).Linked :=
  linked_empty.foldl_apply edits

end CodeGraph.PropertyGraph

import CodeGraph.Proofs.EdgeWalk.Changes
import CodeGraph.Proofs.Graph.Edits

/-!
# What the changes of an edge walk do to a graph

Changes add edges behind those that are there and leave number and ids of the vertices as they are.
`arcs_foldl_apply` lists the added edges. A change that a walk makes only speaks of cached vertices,
and no edge of it stands for a type link (`sound_of_changesWithin`).
-/

namespace CodeGraph

/-- Whether an edge stands for a link that is not a type: its label is that of the relation, and so
is its only property. -/
def Edge.OfLink (e : Edge) : Prop :=
  ∃ relation : Relation, relation ≠ .type ∧ e.label = relation.label ∧
    e.properties.entries = [("type", .text relation.label)]

namespace EdgeWalk

open Attempt

variable {n : Nat}

/-- The property map of the edges of a relation. -/
def edgeProperties (relation : Relation) : Properties :=
  Record.ofList [(PropertyName.type, .text relation.label)]

theorem entries_edgeProperties (relation : Relation) :
    (edgeProperties relation).entries = [("type", .text relation.label)] := rfl

/-- The edge that a change adds to a graph with certain ids. -/
def Change.arc? (idAt : Nat → Option Nat) : Change → Option Arc
  | edge relation source target => do
    let sourceId ← idAt source
    let targetId ← idAt target
    some ⟨source, target, ⟨relation.label, sourceId, targetId, edgeProperties relation⟩⟩
  | reference _ _ => none

/-! ## One change -/

theorem vertices_link (g : PropertyGraph) (relation : Relation) (source target : Nat) :
    (link g relation source target).vertices = g.vertices := by
  unfold link PropertyGraph.addEdge
  split <;> rfl

theorem handles_link (g : PropertyGraph) (relation : Relation) (source target : Nat) :
    (link g relation source target).handles = g.handles := by
  unfold link PropertyGraph.addEdge
  split <;> rfl

theorem idAt?_apply (g : PropertyGraph) (change : Change) : (change.apply g).idAt? = g.idAt? := by
  cases change with
  | edge relation source target => exact PropertyGraph.idAt?_addEdge ..
  | reference vertex names => exact PropertyGraph.idAt?_setVertexProperty ..

theorem size_vertices_apply (g : PropertyGraph) (change : Change) :
    (change.apply g).vertices.size = g.vertices.size := by
  cases change with
  | edge relation source target => rw [Change.apply, vertices_link]
  | reference vertex names =>
    simp only [Change.apply, PropertyGraph.setVertexProperty, Array.size_modify]

theorem handles_apply (g : PropertyGraph) (change : Change) :
    (change.apply g).handles = g.handles := by
  cases change with
  | edge relation source target => exact handles_link ..
  | reference vertex names => rfl

theorem arcs_apply (g : PropertyGraph) (change : Change) :
    (change.apply g).arcs.toList = g.arcs.toList ++ (change.arc? g.idAt?).toList := by
  cases change with
  | edge relation source target =>
    simp only [Change.apply, link, PropertyGraph.addEdge, Change.arc?, PropertyGraph.idAt?]
    cases g.vertices[source]? with
    | none => simp
    | some s => cases g.vertices[target]? <;> simp [edgeProperties]
  | reference vertex names =>
    simp [Change.apply, Change.arc?, PropertyGraph.setVertexProperty]

/-! ## A list of changes -/

theorem idAt?_foldl_apply (g : PropertyGraph) (changes : List Change) :
    (changes.foldl Change.apply g).idAt? = g.idAt? := by
  induction changes generalizing g with
  | nil => rfl
  | cons change rest ih => rw [List.foldl_cons, ih, idAt?_apply]

theorem size_vertices_foldl_apply (g : PropertyGraph) (changes : List Change) :
    (changes.foldl Change.apply g).vertices.size = g.vertices.size := by
  induction changes generalizing g with
  | nil => rfl
  | cons change rest ih => rw [List.foldl_cons, ih, size_vertices_apply]

theorem handles_foldl_apply (g : PropertyGraph) (changes : List Change) :
    (changes.foldl Change.apply g).handles = g.handles := by
  induction changes generalizing g with
  | nil => rfl
  | cons change rest ih => rw [List.foldl_cons, ih, handles_apply]

theorem arcs_foldl_apply (g : PropertyGraph) (changes : List Change) :
    (changes.foldl Change.apply g).arcs.toList =
      g.arcs.toList ++ changes.filterMap (Change.arc? g.idAt?) := by
  induction changes generalizing g with
  | nil => simp
  | cons change rest ih =>
    rw [List.foldl_cons, ih, idAt?_apply, arcs_apply, List.append_assoc]
    cases h : change.arc? g.idAt? <;> simp [h]

/-! ## The changes that a walk makes -/

/-- A change between cached vertices, and not an edge for a type link. -/
def Change.Sound (vertexOf : NodeId → Option Nat) : Change → Prop
  | edge relation source target => relation ≠ .type ∧
      (∃ id, vertexOf id = some source) ∧ ∃ id, vertexOf id = some target
  | reference vertex _ => ∃ id, vertexOf id = some vertex

theorem Change.Sound.ofLink {vertexOf : NodeId → Option Nat} {change : Change}
    (h : change.Sound vertexOf) {idAt : Nat → Option Nat} {x : Arc}
    (hx : change.arc? idAt = some x) : x.edge.OfLink := by
  cases change with
  | edge relation source target =>
    simp only [Change.arc?, Option.bind_eq_bind, Option.bind_eq_some_iff, Option.some.injEq] at hx
    obtain ⟨_, _, _, _, rfl⟩ := hx
    exact ⟨relation, h.1, rfl, entries_edgeProperties relation⟩
  | reference vertex names => cases hx

variable {a : Ast n} {vertexOf : NodeId → Option Nat}

theorem sound_of_entryChanges {below : Fin n → Except ConversionError (List Change)}
    (hbelow : ∀ child changes, below child = .ok changes → ∀ x ∈ changes, x.Sound vertexOf)
    {i : Fin n} {vertex : Nat} {id : NodeId} (hvertex : vertexOf id = some vertex)
    {entry : Relation × List (Fin n)} {changes : List Change}
    (h : entryChanges a vertexOf below i vertex entry = .ok changes) :
    ∀ x ∈ changes, x.Sound vertexOf := by
  intro x hx
  obtain ⟨relation, targets⟩ := entry
  cases relation with
  | structural =>
    obtain ⟨child, -, ys, hys, hx⟩ := mem_of_gather h hx
    obtain ⟨handle, hres, hys⟩ := bind_eq_ok_iff.1 hys
    obtain ⟨deeper, hdeeper, rfl⟩ := map_eq_ok_iff.1 hys
    rcases List.mem_cons.1 hx with rfl | hx
    · exact ⟨by decide, ⟨id, hvertex⟩, _, resolve_eq_ok_iff.1 hres⟩
    · exact hbelow child deeper hdeeper x hx
  | type =>
    obtain ⟨names, -, rfl⟩ := map_eq_ok_iff.1 h
    rw [List.mem_singleton.1 hx]
    exact ⟨id, hvertex⟩
  | _ =>
    obtain ⟨target, -, ys, hys, hx⟩ := mem_of_gather h hx
    obtain ⟨handle, hres, rfl⟩ := map_eq_ok_iff.1 hys
    rw [List.mem_singleton.1 hx]
    exact ⟨by decide, ⟨id, hvertex⟩, _, resolve_eq_ok_iff.1 hres⟩

theorem sound_of_changesWithin {depth : Nat} {i : Fin n} {changes : List Change}
    (h : changesWithin a vertexOf depth i = .ok changes) : ∀ x ∈ changes, x.Sound vertexOf := by
  induction depth generalizing i changes with
  | zero => cases h
  | succ depth ih =>
    intro x hx
    obtain ⟨vertex, hres, hall⟩ := bind_eq_ok_iff.1 h
    obtain ⟨entry, -, ys, hys, hx⟩ := mem_of_gather hall hx
    exact sound_of_entryChanges (fun _ _ => ih) (resolve_eq_ok_iff.1 hres) hys x hx

end EdgeWalk

end CodeGraph

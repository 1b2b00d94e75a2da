import CodeGraph.Proofs.Conversion.Edges
import CodeGraph.Proofs.Record

/-!
# What the vertices of a tree say

A vertex says of its node what `properties` says when the node is taken up: the edge walk adds
references and no other property (`valuesOf_of_add`). So the vertex has the kind of the parent where
there is one, and each attribute from the source under its name.
-/

namespace CodeGraph

/-- What the vertices of a graph have under a name, in order. -/
def PropertyGraph.valuesOf (g : PropertyGraph) (name : String) : List (Option Value) :=
  g.vertices.toList.map (·.properties.get? name)

namespace EdgeWalk

open PropertyGraph

variable {name : String}

theorem valuesOf_apply (hname : name ≠ PropertyName.reference) (g : PropertyGraph)
    (change : Change) : valuesOf (change.apply g) name = valuesOf g name := by
  cases change with
  | edge relation source target => rw [valuesOf, Change.apply, vertices_link, valuesOf]
  | reference vertex names =>
    simp only [valuesOf, Change.apply, PropertyGraph.setVertexProperty, Array.toList_modify]
    refine List.ext_getElem? fun handle => ?_
    simp only [List.getElem?_map, List.getElem?_modify]
    cases g.vertices.toList[handle]? with
    | none => rfl
    | some v =>
      by_cases hv : vertex = handle
      · simp [hv, Vertex.setProperty, Record.get?_insert, hname.symm]
      · simp [hv]

theorem valuesOf_foldl_apply (hname : name ≠ PropertyName.reference) (g : PropertyGraph)
    (changes : List Change) : valuesOf (changes.foldl Change.apply g) name = valuesOf g name := by
  induction changes generalizing g with
  | nil => rfl
  | cons change rest ih => rw [List.foldl_cons, ih, valuesOf_apply hname]

end EdgeWalk

namespace Conversion

open Attempt EdgeWalk PropertyGraph

variable {n : Nat} {a : Ast n} {source : AttributeSource n} {root i : Fin n} {c c' : Conversion}
  {name : String} {extra : Record String}

theorem get?_properties_empty (a : Ast n) (i : Fin n) (name : String) :
    (properties a i ∅).get? name =
      if PropertyName.text = name then some (.text (a.text i))
      else if PropertyName.parentType = name then
        (a.parent? i).map fun parent => .text (a.kind parent)
      else if PropertyName.type = name then some (.text (a.kind i))
      else none := by
  change (Record.insert _ _ _).get? name = _
  rw [Record.get?_insert]
  congr 1
  cases a.parent? i with
  | none =>
    rw [Record.get?_insert]
    by_cases hparent : PropertyName.parentType = name
    · rw [if_pos hparent, ← hparent]
      rfl
    · rw [if_neg hparent]
      rfl
  | some parent =>
    rw [Record.get?_insert, Record.get?_insert]
    rfl

theorem get?_properties_or (a : Ast n) (i : Fin n) (extra : Record String) (name : String) :
    (properties a i extra).get? name =
      ((extra.get? name).map .text).or ((properties a i ∅).get? name) := by
  have hextra : (extra.get? name).map Value.text =
      (extra.entries.find? (·.1 == name)).map fun e => .text e.2 := by
    rw [Record.get?, Option.map_map]
    rfl
  rw [hextra]
  exact Record.get?_foldl_insert Value.text extra.ascending (properties a i ∅) name

theorem get?_properties (a : Ast n) (i : Fin n) (extra : Record String)
    (hname : name ∉ PropertyName.reserved) :
    (properties a i extra).get? name = (extra.get? name).map .text := by
  have htype : PropertyName.type ≠ name := fun h => hname (h ▸ by decide)
  have hparent : PropertyName.parentType ≠ name := fun h => hname (h ▸ by decide)
  have htext : PropertyName.text ≠ name := fun h => hname (h ▸ by decide)
  rw [get?_properties_or, get?_properties_empty, if_neg htext, if_neg hparent, if_neg htype,
    Option.or_none]

theorem get?_properties_reserved (a : Ast n) (i : Fin n)
    (hextra : ∀ e ∈ extra.entries, e.1 ∉ PropertyName.reserved)
    (hname : name ∈ PropertyName.reserved) :
    (properties a i extra).get? name = (properties a i ∅).get? name := by
  have hnone : extra.get? name = none :=
    Record.get?_eq_none fun e he heq => hextra e he (heq ▸ hname)
  rw [get?_properties_or, hnone, Option.map_none, Option.none_or]

theorem get?_properties_parentType (a : Ast n) (i : Fin n)
    (hextra : ∀ e ∈ extra.entries, e.1 ∉ PropertyName.reserved) :
    (properties a i extra).get? PropertyName.parentType =
      (a.parent? i).map fun parent => .text (a.kind parent) := by
  rw [get?_properties_reserved a i hextra (by decide), get?_properties_empty, if_neg (by decide),
    if_pos rfl]

theorem valuesOf_of_add (hname : name ≠ PropertyName.reference)
    (h : c.add a source root = .ok c') :
    valuesOf c'.graph name = valuesOf c.graph name ++
      (a.preorder root).map fun i => (properties a i (extraOf source i)).get? name := by
  obtain ⟨c₁, g, htakes, hstart, rfl⟩ := exists_takesUp_of_add h
  rw [start_eq] at hstart
  obtain ⟨changes, -, rfl⟩ := map_eq_ok_iff.1 hstart
  rw [valuesOf_foldl_apply hname, valuesOf, htakes.vertices, List.map_append, valuesOf]
  congr 1
  conv_rhs => rw [← List.zipIdx_map_fst c.nextId (a.preorder root), List.map_map]
  rw [List.map_map]
  rfl

end Conversion

end CodeGraph

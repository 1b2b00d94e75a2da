import CodeGraph.Proofs.Conversion.Frames
import CodeGraph.Proofs.Conversion.Properties
import CodeGraph.Proofs.EdgeWalk.References

/-!
# What extra attributes do not influence

Two conversions that take up the same trees with different extra attributes differ in nothing else:
they have the same ids, edges and reserved properties (`AlikeButExtras`). A tree that is taken up
keeps them alike (`AlikeButExtras.add`), and so does any sequence of calls of which the same succeed
(`AlikeButExtras.runCalls`), since attributes may still make a tree fail.
-/

namespace CodeGraph

/-- Whether two graphs differ at most in properties whose names are not reserved. -/
structure PropertyGraph.AlikeButExtras (g k : PropertyGraph) : Prop where
  size : g.vertices.size = k.vertices.size
  ids : g.idAt? = k.idAt?
  index : g.handles = k.handles
  arcs : g.arcs = k.arcs
  values : ∀ name ∈ PropertyName.reserved, g.valuesOf name = k.valuesOf name

/-- Whether two conversions differ at most in properties whose names are not reserved. -/
structure Conversion.AlikeButExtras (c d : Conversion) : Prop where
  graph : c.graph.AlikeButExtras d.graph
  cache : c.handles = d.handles
  nextId : c.nextId = d.nextId

namespace PropertyGraph

open EdgeWalk

theorem AlikeButExtras.refl (g : PropertyGraph) : g.AlikeButExtras g :=
  ⟨rfl, rfl, rfl, rfl, fun _ _ => rfl⟩

theorem AlikeButExtras.addVertex {g k : PropertyGraph} (h : g.AlikeButExtras k) {v w : Vertex}
    (hid : v.id = w.id)
    (hvalues : ∀ name ∈ PropertyName.reserved, v.properties.get? name = w.properties.get? name) :
    (g.addVertex v).AlikeButExtras (k.addVertex w) where
  size := by simp [PropertyGraph.addVertex, h.size]
  ids := by
    funext handle
    rw [idAt?_addVertex, idAt?_addVertex, h.ids, h.size, hid]
  index := by simp [PropertyGraph.addVertex, h.index, h.size, hid]
  arcs := h.arcs
  values name hname := by
    have hbefore := h.values name hname
    simp only [valuesOf] at hbefore
    simp [valuesOf, PropertyGraph.addVertex, hbefore, hvalues name hname]

theorem getElem?_valuesOf_foldl_apply (g : PropertyGraph) (changes : List Change) (name : String)
    (handle : Nat) :
    (valuesOf (changes.foldl Change.apply g) name)[handle]? =
      (g.valuesOf name)[handle]?.map fun old =>
        if PropertyName.reference = name then
          ((changes.filterMap (Change.namesFor? handle)).getLast?.map .text).or old
        else old := by
  simp only [valuesOf, List.getElem?_map, Array.getElem?_toList, getElem?_vertices_foldl_apply,
    Option.map_map]
  congr 1
  funext v
  exact v.get?_withReferences _ name

theorem AlikeButExtras.foldl_apply {g k : PropertyGraph} (h : g.AlikeButExtras k)
    (changes : List Change) :
    (changes.foldl Change.apply g).AlikeButExtras (changes.foldl Change.apply k) where
  size := by rw [size_vertices_foldl_apply, size_vertices_foldl_apply, h.size]
  ids := by rw [idAt?_foldl_apply, idAt?_foldl_apply, h.ids]
  index := by rw [handles_foldl_apply, handles_foldl_apply, h.index]
  arcs := by rw [← Array.toList_inj, arcs_foldl_apply, arcs_foldl_apply, h.arcs, h.ids]
  values name hname := by
    refine List.ext_getElem? fun handle => ?_
    rw [getElem?_valuesOf_foldl_apply, getElem?_valuesOf_foldl_apply, h.values name hname]

end PropertyGraph

namespace Conversion

open Attempt EdgeWalk PropertyGraph

variable {n : Nat} {a : Ast n} {source other : AttributeSource n} {root : Fin n}
  {c c' d d' : Conversion}

theorem AlikeButExtras.refl (c : Conversion) : c.AlikeButExtras c := ⟨.refl _, rfl, rfl⟩

theorem AlikeButExtras.foldlM_addVertex (h : c.AlikeButExtras d) {nodes : List (Fin n)}
    (hc : nodes.foldlM (addVertex a source) c = .ok c')
    (hd : nodes.foldlM (addVertex a other) d = .ok d') : c'.AlikeButExtras d' := by
  induction nodes generalizing c d with
  | nil =>
    cases hc
    cases hd
    exact h
  | cons i rest ih =>
    rw [List.foldlM_cons, bind_eq, bind_eq_ok_iff] at hc hd
    obtain ⟨c₁, hci, hc⟩ := hc
    obtain ⟨d₁, hdi, hd⟩ := hd
    obtain ⟨-, hextra, rfl⟩ := addVertex_eq_ok_iff.1 hci
    obtain ⟨-, hother, rfl⟩ := addVertex_eq_ok_iff.1 hdi
    refine ih ⟨h.graph.addVertex h.nextId fun name hname => ?_, ?_, ?_⟩ hc hd
    · rw [get?_properties_reserved a i (extraAttributes_eq_ok_iff.1 hextra).2 hname,
        get?_properties_reserved a i (extraAttributes_eq_ok_iff.1 hother).2 hname]
    · simp [withVertex, h.cache, h.graph.size]
    · simp [withVertex, h.nextId]

theorem AlikeButExtras.add (h : c.AlikeButExtras d) (hc : c.add a source root = .ok c')
    (hd : d.add a other root = .ok d') : c'.AlikeButExtras d' := by
  obtain ⟨c₁, changes, hcnodes, hchanges, rfl⟩ := add_eq_ok_iff.1 hc
  obtain ⟨d₁, others, hdnodes, hothers, rfl⟩ := add_eq_ok_iff.1 hd
  have h₁ := h.foldlM_addVertex hcnodes hdnodes
  obtain rfl : changes = others := by
    rw [h₁.cache, hothers] at hchanges
    exact (Except.ok.inj hchanges).symm
  exact ⟨h₁.graph.foldl_apply changes, h₁.cache, h₁.nextId⟩

/-- Whether two calls are for the same, but for the extra attributes. -/
inductive Call.AlikeButExtras : Call → Call → Prop
  | process {n : Nat} (a : Ast n) (source other : AttributeSource n) (root : Fin n) :
      AlikeButExtras (.process a source root) (.process a other root)
  | reset : AlikeButExtras .reset .reset
  | takeGraph : AlikeButExtras .takeGraph .takeGraph

/-- One call. Attributes may make a tree fail, but not more than that. -/
theorem AlikeButExtras.run (h : c.AlikeButExtras d) {x y : Call} (hxy : x.AlikeButExtras y)
    (hanew : (x.run c).2.StartsAnew ↔ (y.run d).2.StartsAnew) :
    (x.run c).1.AlikeButExtras (y.run d).1 := by
  by_cases hx : (x.run c).2.StartsAnew
  · rw [run_eq_empty hx, run_eq_empty (hanew.1 hx)]
    exact .refl ∅
  · have hy := mt hanew.2 hx
    cases hxy with
    | process a source other root =>
      simp only [Call.run, Answer.StartsAnew, Prod.map_snd, ne_eq, Decidable.not_not,
        Answer.outcome.injEq] at hx hy
      exact h.add (add_of_process hx) (add_of_process hy)
    | reset => exact absurd (by simp [Call.run, Answer.StartsAnew]) hx
    | takeGraph => exact absurd (by simp [Call.run, Answer.StartsAnew]) hx

theorem AlikeButExtras.runCalls (h : c.AlikeButExtras d) {calls others : List Call}
    (hsame : List.Forall₂ Call.AlikeButExtras calls others)
    (hanew : List.Forall₂ (fun x y => x.StartsAnew ↔ y.StartsAnew) (c.runCalls calls).2
      (d.runCalls others).2) :
    (c.runCalls calls).1.AlikeButExtras (d.runCalls others).1 := by
  induction hsame generalizing c d with
  | nil => exact h
  | cons hxy _ ih =>
    rw [runCalls_cons, runCalls_cons, List.forall₂_cons] at hanew
    rw [runCalls_cons, runCalls_cons]
    exact ih (h.run hxy hanew.1) hanew.2

end Conversion

end CodeGraph

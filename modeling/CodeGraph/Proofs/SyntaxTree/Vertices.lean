import CodeGraph.Proofs.Conversion.Properties
import CodeGraph.Proofs.SyntaxTree.Conversion
import Std.Data.String.ToNat

/-!
# The vertices of a syntax tree

In the graph of a sound tree the vertices are those of its keys in order, and each says of its node
what `properties` says with the attributes from the source (`Sound.get?_vertex`). Where positions
are asked for, the range of octets that a node comes from can be read off two of these attributes
(`Sound.byteRange?_vertex`).
-/

namespace CodeGraph

/-- A range of octets in a source, from `start` on and before `stop`. -/
structure ByteRange where
  start : Nat
  stop : Nat
  deriving DecidableEq

namespace ByteRange

/-- Whether a range lies in another. -/
def Within (r s : ByteRange) : Prop := s.start ≤ r.start ∧ r.stop ≤ s.stop

/-- Whether a range ends where another begins, or before. -/
def Before (r s : ByteRange) : Prop := r.stop ≤ s.start

/-- Whether a text is what stands in a range of the source. -/
def Spells (r : ByteRange) (source text : String) : Prop :=
  ∃ before after : String, source = before ++ text ++ after ∧
    r.start = before.utf8ByteSize ∧ r.stop = before.utf8ByteSize + text.utf8ByteSize

end ByteRange

/-- The range that a vertex says it comes from, in decimal. -/
def Vertex.byteRange? (v : Vertex) : Option ByteRange := do
  let start ← (← v.text? "startByte").toNat?
  let stop ← (← v.text? "endByte").toNat?
  some ⟨start, stop⟩

namespace SyntaxTree

open Attempt Conversion

variable {t : SyntaxTree}

/-! ## Attributes -/

theorem Sound.not_mem_reserved (h : t.Sound) (spans : Bool) (i : Fin t.size) :
    ∀ e ∈ (extraOf (t.sourceAttributes spans) i).entries, e.1 ∉ PropertyName.reserved := by
  obtain ⟨extra, hextra, hreserved⟩ := h.sourceAttributes_eq spans i
  rw [extraOf, hextra]
  exact hreserved

theorem Sound.get?_bytes (h : t.Sound) {i : Fin t.size} {x : Node} {s : Span}
    (hx : t.nodes[i.val]? = some x) (hspan : x.data.span = some s) :
    (extraOf (t.sourceAttributes true) i).get? "startByte" = some (toString s.startByte) ∧
      (extraOf (t.sourceAttributes true) i).get? "endByte" = some (toString s.endByte) := by
  obtain ⟨name, hname⟩ := h.declaredName?_eq hx
  have hnames : (spanAttributes s).map Prod.fst = sourceNames.take 6 := rfl
  have hgiven : ∀ e ∈ spanAttributes s,
      (extraOf (t.sourceAttributes true) i).get? e.1 = some e.2 := by
    intro e he
    rw [extraOf, sourceAttributes, sourceAttributes?, node?, hx, hname]
    change (Record.ofList (x.data.span.elim [] spanAttributes ++ _ ++ _ ++ _)).get? e.1 = _
    rw [hspan, Option.elim_some, List.append_assoc, List.append_assoc]
    refine Record.get?_ofList_append (by rw [hnames]; decide) (fun b hb => ?_) he
    rw [hnames]
    simp only [List.mem_append, List.mem_map] at hb
    rcases hb with ⟨_, -, rfl⟩ | ⟨_, -, rfl⟩ | hb
    · change "field" ∉ sourceNames.take 6
      decide
    · change "name" ∉ sourceNames.take 6
      decide
    · split at hb
      · obtain ⟨_, -, rfl⟩ := List.mem_map.1 hb
        change "file" ∉ sourceNames.take 6
        decide
      · cases hb
  exact ⟨hgiven ("startByte", toString s.startByte) (by simp [spanAttributes]),
    hgiven ("endByte", toString s.endByte) (by simp [spanAttributes])⟩

/-! ## The graph of a tree -/

section graph

variable {c : Conversion} {root : Fin t.size} {spans : Bool} {handle : Nat} {v : Vertex}
  (h : t.Sound) (hroot : root.val = 0)
  (hadd : (∅ : Conversion).add t.ast (t.sourceAttributes spans) root = .ok c)

include h hroot hadd

theorem Sound.lt_size_of_vertex (hv : c.graph.vertices.toList[handle]? = some v) :
    handle < t.size := by
  have hlt := (List.getElem?_eq_some_iff.1 hv).1
  rw [Array.length_toList, h.size_of_add hroot hadd] at hlt
  exact (Nat.zero_add t.size) ▸ hlt

theorem Sound.get?_vertex {name : String} (hname : name ≠ PropertyName.reference)
    (hv : c.graph.vertices.toList[handle]? = some v) :
    let i : Fin t.size := ⟨handle, h.lt_size_of_vertex hroot hadd hv⟩
    v.properties.get? name =
      (properties t.ast i (extraOf (t.sourceAttributes spans) i)).get? name := by
  have hlt := h.lt_size_of_vertex hroot hadd hv
  have hall : c.graph.valuesOf name = (List.finRange t.size).map fun i =>
      (properties t.ast i (extraOf (t.sourceAttributes spans) i)).get? name := by
    have hadded := valuesOf_of_add hname hadd
    rw [h.preorder_eq hroot] at hadded
    exact hadded
  have hat := congrArg (·[handle]?) hall
  simp only [PropertyGraph.valuesOf, List.getElem?_map, hv] at hat
  rw [List.getElem?_eq_getElem (by simpa using hlt), Option.map_some, Option.map_some,
    Option.some.injEq, List.getElem_finRange] at hat
  exact hat

theorem Sound.byteRange?_vertex {x : Node} {s : Span} (hspans : spans = true)
    (hx : t.nodes[handle]? = some x) (hspan : x.data.span = some s)
    (hv : c.graph.vertices.toList[handle]? = some v) :
    v.byteRange? = some ⟨s.startByte, s.endByte⟩ ∧ v.nodeText? = some x.data.text := by
  subst hspans
  have hsaid : ∀ {name}, name ≠ PropertyName.reference → v.properties.get? name = _ :=
    fun hname => h.get?_vertex hroot hadd hname hv
  have htext : ∀ {name value : String}, name ≠ PropertyName.reference →
      name ∉ PropertyName.reserved →
      (extraOf (t.sourceAttributes true) ⟨handle, h.lt_size_of_vertex hroot hadd hv⟩).get? name =
        some value → v.text? name = some value := by
    intro name value hname hreserved hvalue
    rw [Vertex.text?, hsaid hname, get?_properties _ _ _ hreserved, hvalue]
    rfl
  obtain ⟨hstart, hend⟩ := h.get?_bytes (i := ⟨handle, h.lt_size_of_vertex hroot hadd hv⟩) hx hspan
  have hstart := htext (by decide) (by decide) hstart
  have hend := htext (by decide) (by decide) hend
  have hstartValue : (toString s.startByte).toNat? = some s.startByte := Nat.toNat?_repr _
  have hendValue : (toString s.endByte).toNat? = some s.endByte := Nat.toNat?_repr _
  constructor
  · simp only [Vertex.byteRange?, hstart, hend, Option.bind_eq_bind, Option.bind_some,
      hstartValue, hendValue]
  · rw [Vertex.nodeText?, Vertex.text?, hsaid (by decide),
      get?_properties_reserved _ _ (h.not_mem_reserved true _) (by decide), get?_properties_empty,
      if_pos rfl, text_ast hx]
    rfl

end graph

end SyntaxTree

end CodeGraph

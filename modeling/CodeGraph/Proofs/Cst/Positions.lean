import CodeGraph.Proofs.Conversion.Forest
import CodeGraph.Proofs.Cst.Contraction
import CodeGraph.Proofs.Cst.Conversion
import CodeGraph.Proofs.Cst.Embedding
import CodeGraph.Proofs.Cst.TypeNames
import CodeGraph.Proofs.SyntaxTree.Vertices

/-!
# Positions

Let the range of each row lie in that of its parent, and the ranges of siblings follow each other
(`Cst.Nested`). Then the range of a row lies in those of all rows above it, and ends before that of
any later row which is not below it (`Nested.before`), however many rows between them are left out.
So the positions that the vertices of the graph have nest along its structural edges, and follow
each other in the order of the edges of one vertex (`located_of_toSyntaxTree`).
-/

namespace CodeGraph

/-- The range of the vertex with an id. -/
def PropertyGraph.byteRangeAt? (g : PropertyGraph) (id : Nat) : Option ByteRange :=
  (g.vertexById? id).bind Vertex.byteRange?

/-- What the positions in the graph of a source say: each vertex has the text in its range, a
structural edge leads to a range in that of its source, and those that the structural edges of one
vertex lead to follow each other. -/
structure PropertyGraph.Located (g : PropertyGraph) (source : String) : Prop where
  spelled : ∀ v ∈ g.vertices.toList, ∃ r text, v.byteRange? = some r ∧ v.nodeText? = some text ∧
    r.Spells source text
  within : ∀ e ∈ g.edgesLabeled "STRUCTURAL", ∃ r s, g.byteRangeAt? e.source = some r ∧
    g.byteRangeAt? e.target = some s ∧ s.Within r
  apart : ∀ v ∈ g.vertices.toList,
    ((g.edgesFrom v.id).filter (·.label == "STRUCTURAL")).Pairwise fun e f =>
      ∃ r s, g.byteRangeAt? e.target = some r ∧ g.byteRangeAt? f.target = some s ∧ r.Before s

namespace ByteRange

variable {r s t : ByteRange}

theorem Within.refl (r : ByteRange) : r.Within r := ⟨Nat.le_refl _, Nat.le_refl _⟩

theorem Within.trans (hrs : r.Within s) (hst : s.Within t) : r.Within t :=
  ⟨Nat.le_trans hst.1 hrs.1, Nat.le_trans hrs.2 hst.2⟩

theorem Within.before (hrs : r.Within s) (hst : s.Before t) : r.Before t :=
  Nat.le_trans hrs.2 hst

theorem Before.of_within (hrs : r.Before s) (hts : t.Within s) : r.Before t :=
  Nat.le_trans hrs hts.1

end ByteRange

namespace Cst

/-- The range of a row. -/
def Row.range (r : Row) : ByteRange := ⟨r.startByte, r.endByte⟩

/-- The range of a row; a row that is not there has an empty one. -/
def range (c : Cst) (i : Nat) : ByteRange := c.rows[i]?.elim ⟨0, 0⟩ Row.range

/-- Whether the range of each row lies in that of its parent, and those of siblings follow each
other. -/
structure Nested (c : Cst) : Prop where
  within : ∀ i p, c.parent? i = some p → (c.range i).Within (c.range p)
  apart : ∀ i j p, i < j → c.parent? i = some p → c.parent? j = some p →
    (c.range i).Before (c.range j)

variable {c : Cst} {i j p : Nat}

/-! ## Ranges of rows -/

theorem exists_child_of_mem_ancestors (h : p ∈ c.ancestors i) :
    ∃ u, c.parent? u = some p ∧ c.AtOrAbove u i := by
  induction i using Nat.strongRecOn with
  | ind i ih =>
    obtain hnil | ⟨q, hlt, hq, hcons⟩ := c.ancestors_eq i
    · rw [hnil] at h
      cases h
    · rw [hcons] at h
      rcases List.mem_cons.1 h with rfl | h
      · exact ⟨i, hq, .inl rfl⟩
      · obtain ⟨u, hu, habove⟩ := ih q hlt h
        refine ⟨u, hu, .inr ?_⟩
        rw [hcons]
        exact List.mem_cons.2 habove

theorem Nested.within_of_mem_ancestors (h : c.Nested) (hp : p ∈ c.ancestors i) :
    (c.range i).Within (c.range p) := by
  induction i using Nat.strongRecOn with
  | ind i ih =>
    obtain hnil | ⟨q, hlt, hq, hcons⟩ := c.ancestors_eq i
    · rw [hnil] at hp
      cases hp
    · have hparent := h.within i q hq
      rw [hcons] at hp
      rcases List.mem_cons.1 hp with rfl | hp
      · exact hparent
      · exact hparent.trans (ih q hlt hp)

theorem Nested.within_of_atOrAbove (h : c.Nested) (hp : c.AtOrAbove p i) :
    (c.range i).Within (c.range p) := by
  rcases hp with rfl | hp
  · exact .refl _
  · exact h.within_of_mem_ancestors hp

/-- The range of a row ends before that of a later row which is not below it. -/
theorem Nested.before (h : c.Nested) (hc : c.PreOrdered) (hij : i < j) (hj : j < c.size)
    (hnot : i ∉ c.ancestors j) : (c.range i).Before (c.range j) := by
  -- The induction goes up from the later row, until its parent is above the earlier one.
  induction j using Nat.strongRecOn with
  | ind j ih =>
    obtain ⟨p, hlt, hp⟩ := hc.preOrder.parents j (Nat.zero_lt_of_lt hij) hj
    have hcons : c.ancestors j = p :: c.ancestors p := by
      rw [ancestors, hp]
      exact if_pos hlt
    have hpj : p ∈ c.ancestors j := hcons ▸ List.mem_cons_self
    rcases Nat.lt_trichotomy i p with hip | rfl | hpi
    · have hnotp : i ∉ c.ancestors p := fun hmem => hnot (hcons ▸ List.mem_cons_of_mem _ hmem)
      exact (ih p hlt hip (Nat.lt_trans hlt hj) hnotp).of_within (h.within j p hp)
    · exact absurd hpj hnot
    · have hpmem : p ∈ c.ancestors i := by
        by_contra hnone
        exact hc.not_mem_ancestors_of_le hpi (Nat.le_of_lt hij) hj hnone hpj
      obtain ⟨u, hu, habove⟩ := exists_child_of_mem_ancestors hpmem
      have huj : u < j := by
        rcases habove with rfl | hmem
        · exact hij
        · exact Nat.lt_trans (lt_of_mem_ancestors hmem) hij
      exact (h.within_of_atOrAbove habove).before (h.apart u j p huj hu hp)

end Cst

namespace Outline

variable {o : Outline} {k l p i j : Nat}

theorem Ordered.within (ho : o.Ordered) (h : o.cst.Nested) (hp : o.parentKey? k = some p)
    (hi : o.kept[k]? = some i) (hj : o.kept[p]? = some j) :
    (o.cst.range i).Within (o.cst.range j) := by
  obtain ⟨i', r, hi', hr, hmem, -⟩ := ho.parentKey?_eq_some hp
  obtain rfl : i = i' := Option.some.inj (hi.symm.trans hi')
  obtain rfl : j = r := Option.some.inj (hj.symm.trans hr)
  exact h.within_of_mem_ancestors hmem

theorem Ordered.before (ho : o.Ordered) (h : o.cst.Nested) (hkl : k < l)
    (hk : o.parentKey? k = some p) (hl : o.parentKey? l = some p) (hi : o.kept[k]? = some i)
    (hj : o.kept[l]? = some j) : (o.cst.range i).Before (o.cst.range j) := by
  refine h.before ho.rows ((ho.row_lt_iff hi hj).2 hkl) (ho.inside j (List.mem_of_getElem? hj)) ?_
  intro hmem
  obtain ⟨j', -, hj', -, -, hnearest⟩ := ho.parentKey?_eq_some hl
  obtain rfl : j = j' := Option.some.inj (hj.symm.trans hj')
  have hle := hnearest k (ho.mem_scopes_iff.2 ⟨i, hmem, hi⟩)
  have hlt := ho.parentKey?_lt hk
  omega

end Outline

namespace Cst

open Attempt Conversion Outline SyntaxTree

variable {c : Cst} {source path : String} {tables : Language.Tables} {config : Config}
  {number : UInt32} {t : SyntaxTree}

/-! ## Ranges of vertices -/

section graph

variable {root : Fin t.size} {c' : Conversion} {k i : Nat} (hc : c.WellFormed source)
  (h : c.toSyntaxTree source tables config path number = .ok t) (hroot : root.val = 0)
  (hadd : (∅ : Conversion).add t.ast (t.sourceAttributes config.spans) root = .ok c')

include hc h hroot hadd

theorem WellFormed.exists_rows_of_edge {e : Edge} (he : e ∈ c'.graph.edgesLabeled "STRUCTURAL") :
    ∃ k p i j, (make source c tables config).parentKey? k = some p ∧
      (c.kept config.includeAnonymous)[k]? = some i ∧
      (c.kept config.includeAnonymous)[p]? = some j ∧ e.source = p + 1 ∧ e.target = k + 1 := by
  have hsound := hc.preOrdered.sound_of_toSyntaxTree h
  obtain ⟨hmem, hlabel⟩ := List.mem_filter.1 he
  rcases hsound.exists_relates_of_add hroot hadd (Array.mem_toList_iff.1 hmem) with
    hold | ⟨relation, p, k, hrelates, hrelation, hsource, htarget⟩
  · rw [edges_empty] at hold
    exact absurd hold (Array.not_mem_empty e)
  obtain rfl : relation = .structural :=
    Relation.label_inj.1 (hrelation.symm.trans (beq_iff_eq.1 hlabel))
  have hparent := hsound.relates_structural_iff.1 hrelates
  rw [(hc.preOrdered.shown_of_toSyntaxTree h).parents] at hparent
  obtain ⟨i, j, hi, hj, -⟩ :=
    (ordered_make hc.preOrdered source tables config).parentKey?_eq_some hparent
  exact ⟨k, p, i, j, hparent, hi, hj, hsource.trans (Nat.add_comm 1 p),
    htarget.trans (Nat.add_comm 1 k)⟩

omit hroot in
theorem WellFormed.pairwise_edgesFrom (id : Nat) :
    ((c'.graph.edgesFrom id).filter (·.label == "STRUCTURAL")).Pairwise fun e f =>
      e.target < f.target := by
  have hsound := hc.preOrdered.sound_of_toSyntaxTree h
  have htargets := targets_of_add (fun i _ => hsound.structuralCount_le_one i) hadd
  rw [edgesLabeled_empty, List.map_nil, List.nil_append] at htargets
  have hascending : (c'.graph.edgesLabeled "STRUCTURAL").Pairwise fun e f =>
      e.target < f.target := by
    rw [← List.pairwise_map (f := Edge.target) (R := (· < ·))]
    exact htargets ▸ List.pairwise_lt_range' 1
  rw [(coherent_empty.add hadd).edgesFrom_eq, List.filter_comm]
  exact hascending.filter _

variable (hspans : config.spans = true)

include hspans

theorem WellFormed.exists_vertex_of_row (hi : (c.kept config.includeAnonymous)[k]? = some i) :
    ∃ v text, c'.graph.vertices.toList[k]? = some v ∧ v.id = k + 1 ∧
      v.byteRange? = some (c.range i) ∧ v.nodeText? = some text ∧
      (c.range i).Spells source text := by
  have hshown := hc.preOrdered.shown_of_toSyntaxTree h
  have hsound := hc.preOrdered.sound_of_toSyntaxTree h
  obtain ⟨r, x, hr, hx, -, hcovers, hspan, -⟩ := hc.exists_node hshown.data hshown.size hi
  have hk : k < c'.graph.vertices.toList.length := by
    rw [Array.length_toList, hsound.size_of_add hroot hadd]
    exact Nat.lt_of_lt_of_eq (Array.getElem?_eq_some_iff.1 hx).1 (Nat.zero_add t.size).symm
  have hv := List.getElem?_eq_getElem hk
  obtain ⟨hrange, htext⟩ := hsound.byteRange?_vertex hroot hadd hspans hx hspan hv
  have hid := (coherent_empty.add hadd).idAt? (Array.length_toList ▸ hk)
  rw [PropertyGraph.idAt?, ← Array.getElem?_toList, hv, Option.map_some, Option.some.injEq] at hid
  have hrow : c.range i = r.range := by rw [Cst.range, hr, Option.elim_some]
  rw [hrow]
  exact ⟨_, _, hv, hid, hrange, htext, hcovers⟩

theorem WellFormed.byteRangeAt?_of_row (hi : (c.kept config.includeAnonymous)[k]? = some i) :
    c'.graph.byteRangeAt? (k + 1) = some (c.range i) := by
  obtain ⟨v, -, hv, hid, hrange, -⟩ := hc.exists_vertex_of_row h hroot hadd hspans hi
  rw [PropertyGraph.byteRangeAt?, ← hid,
    (coherent_empty.add hadd).vertexById? (List.mem_of_getElem? hv), Option.bind_some, hrange]

theorem WellFormed.located (hnested : c.Nested) : c'.graph.Located source where
  spelled v hv := by
    obtain ⟨k, hk⟩ := List.mem_iff_getElem?.1 hv
    have hlt : k < (c.kept config.includeAnonymous).length := by
      have hsize := (hc.preOrdered.sound_of_toSyntaxTree h).size_of_add hroot hadd
      have hk := (List.getElem?_eq_some_iff.1 hk).1
      rw [Array.length_toList, hsize, hc.preOrdered.size_of_toSyntaxTree h] at hk
      exact Nat.lt_of_lt_of_eq hk (Nat.zero_add _)
    obtain ⟨w, text, hw, -, hrange, htext, hspells⟩ :=
      hc.exists_vertex_of_row h hroot hadd hspans (List.getElem?_eq_getElem hlt)
    obtain rfl : w = v := Option.some.inj (hw.symm.trans hk)
    exact ⟨_, _, hrange, htext, hspells⟩
  within e he := by
    obtain ⟨k, p, i, j, hp, hi, hj, hsource, htarget⟩ :=
      hc.exists_rows_of_edge h hroot hadd he
    rw [hsource, htarget]
    exact ⟨_, _, hc.byteRangeAt?_of_row h hroot hadd hspans hj,
      hc.byteRangeAt?_of_row h hroot hadd hspans hi,
      (ordered_make hc.preOrdered source tables config).within hnested hp hi hj⟩
  apart v _ := by
    have hsources : ∀ e ∈ (c'.graph.edgesFrom v.id).filter (·.label == "STRUCTURAL"),
        e ∈ c'.graph.edgesLabeled "STRUCTURAL" ∧ e.source = v.id := by
      intro e he
      rw [(coherent_empty.add hadd).edgesFrom_eq, List.filter_comm] at he
      obtain ⟨hmem, hsource⟩ := List.mem_filter.1 he
      exact ⟨hmem, beq_iff_eq.1 hsource⟩
    refine (hc.pairwise_edgesFrom h hadd v.id).imp_of_mem fun {e f} he hf hlt => ?_
    obtain ⟨he, hesource⟩ := hsources e he
    obtain ⟨hf, hfsource⟩ := hsources f hf
    obtain ⟨k, p, i, -, hp, hi, -, hsource, htarget⟩ :=
      hc.exists_rows_of_edge h hroot hadd he
    obtain ⟨l, q, j, -, hq, hj, -, hsource', htarget'⟩ :=
      hc.exists_rows_of_edge h hroot hadd hf
    obtain rfl : p = q := by omega
    rw [htarget, htarget']
    exact ⟨_, _, hc.byteRangeAt?_of_row h hroot hadd hspans hi,
      hc.byteRangeAt?_of_row h hroot hadd hspans hj,
      (ordered_make hc.preOrdered source tables config).before hnested (by omega) hp hq hi hj⟩

end graph

/-- **Positions.** Let the rows of a well-formed source be nested, and let positions be asked for.
Whatever graph the syntax tree of the source becomes, each vertex has as its text what stands in the
source from its attribute `startByte` to `endByte`. The range of the target of a structural edge
lies in that of the source, and the ranges of the targets of those from one vertex follow each
other, in the order of the edges. With the tables of a language there is such a graph. -/
theorem located_of_toSyntaxTree (hc : c.WellFormed source) (hnested : c.Nested)
    (hspans : config.spans = true)
    (h : c.toSyntaxTree source tables config path number = .ok t) :
    (∀ root : Fin t.size, root.val = 0 → ∀ g,
      graphOf t.ast (t.sourceAttributes config.spans) root = .ok g → g.Located source) ∧
    ∀ language : Language, tables = language.tables → ∃ root : Fin t.size, root.val = 0 ∧
      ∃ g, graphOf t.ast (t.sourceAttributes config.spans) root = .ok g := by
  constructor
  · intro root hroot g hgraph
    obtain ⟨c', hadd, rfl⟩ := map_eq_ok_iff.1 hgraph
    exact hc.located h hroot hadd hspans hnested
  · rintro language rfl
    obtain ⟨root, hroot, c', hadd⟩ := hc.preOrdered.exists_add_of_toSyntaxTree h
    exact ⟨root, hroot, c'.graph, map_eq_ok_iff.2 ⟨c', hadd, rfl⟩⟩

theorem nested_recursiveRows : recursiveRows.Nested where
  within i p hp := by
    have hi : i < 7 := lt_size_of_parent? hp
    have hpi := wellFormed_recursiveRows.preOrdered.lt_of_parent? hp
    have hall : ∀ i < 7, ∀ p < 7, recursiveRows.parent? i = some p →
        (recursiveRows.range p).start ≤ (recursiveRows.range i).start ∧
          (recursiveRows.range i).stop ≤ (recursiveRows.range p).stop := by decide +kernel
    exact hall i hi p (by omega) hp
  apart i j p hij hi hj := by
    have hall : ∀ j < 7, ∀ i < j, recursiveRows.parent? i = recursiveRows.parent? j →
        (recursiveRows.range i).stop ≤ (recursiveRows.range j).start := by decide +kernel
    exact hall j (lt_size_of_parent? hj) i hij (hi.trans hj.symm)

/-- The call is lifted next to the name of the function. -/
theorem located_of_toSyntaxTree_recursiveRows :
    recursiveRows.WellFormed "def f(): f()" ∧ recursiveRows.Nested ∧
    Config.standard.spans = true ∧ ∃ t,
      recursiveRows.toSyntaxTree "def f(): f()" Language.python.tables .standard "a.py" 0 = .ok t ∧
      ∃ root g, graphOf t.ast (t.sourceAttributes true) root = .ok g ∧
        g.vertices.size = 5 ∧ g.Located "def f(): f()" := by
  obtain ⟨t, ht⟩ := wellFormed_recursiveRows.exists_toSyntaxTree Language.python.tables .standard
    "a.py" 0 fun h => absurd h (by decide)
  obtain ⟨hlocated, hexists⟩ :=
    located_of_toSyntaxTree wellFormed_recursiveRows nested_recursiveRows rfl ht
  obtain ⟨root, hroot, g, hgraph⟩ := hexists .python rfl
  obtain ⟨c', hadd, rfl⟩ := map_eq_ok_iff.1 hgraph
  have hsound := wellFormed_recursiveRows.preOrdered.sound_of_toSyntaxTree ht
  have hsize := hsound.size_of_add hroot hadd
  have hkept : recursiveRows.kept false = [0, 1, 3, 5, 6] := by decide +kernel
  rw [wellFormed_recursiveRows.preOrdered.size_of_toSyntaxTree ht] at hsize
  exact ⟨wellFormed_recursiveRows, nested_recursiveRows, rfl, t, ht, root, c'.graph, hgraph,
    hsize.trans (congrArg List.length hkept), hlocated root hroot _ hgraph⟩

end Cst

end CodeGraph

import CodeGraph.Proofs.Conversion.Concatenation
import CodeGraph.Proofs.Conversion.Edges
import CodeGraph.Proofs.EdgeWalk.Frames
import Mathlib.Tactic.TFAE

/-!
# Both walks over one tree

The vertices of a tree come from pre-order, which follows the first structural entry of a node. The
edge walk follows them all. So it opens frames for the nodes of the pre-order, but possibly for some
of them again: where a later structural entry of a node has targets, the walk goes through what lies
below them once more, and adds the edges once more. `framesOf_process` says that both walks meet the
same nodes exactly if there is no such entry, and that the number of structural edges tells.
-/

namespace CodeGraph

namespace Conversion

open Attempt EdgeWalk

variable {n : Nat} {a : Ast n} {source : AttributeSource n} {root : Fin n} {c c' : Conversion}

/-- The nodes for which the edge walk opens frames when a tree is taken up, in order. -/
def framesOf (c : Conversion) (a : Ast n) (source : AttributeSource n) (root : Fin n) :
    List (Fin n) :=
  match (a.preorder root).foldlM (addVertex a source) c with
  | .error _ => []
  | .ok c₁ => framesFrom a (c₁.handles[·]?) c₁.graph root

theorem framesOf_of_add (h : c.add a source root = .ok c') :
    c.framesOf a source root = a.visits (n + 1) root := by
  rw [add_eq, bind_eq_ok_iff] at h
  obtain ⟨c₁, hvertices, h⟩ := h
  obtain ⟨g, hstart, -⟩ := map_eq_ok_iff.1 h
  rw [framesOf, hvertices]
  exact framesFrom_of_start a _ hstart

theorem cached_of_mem_visits (h : c.add a source root = .ok c') :
    ∀ i ∈ a.visits (n + 1) root, (c'.handles[a.identity i]?).isSome := by
  obtain ⟨c₁, g, htakes, hstart, rfl⟩ := exists_takesUp_of_add h
  rw [start_eq] at hstart
  obtain ⟨changes, hchanges, -⟩ := map_eq_ok_iff.1 hstart
  intro i hi
  rw [Ast.visits_eq, List.mem_cons] at hi
  rcases hi with rfl | hi
  · exact (htakes.isSome_iff _).2 (.inr (List.mem_map_of_mem (a.mem_preorder_self _)))
  · obtain ⟨l, hl, rfl⟩ := List.mem_map.1 hi
    obtain ⟨hmem, hrel⟩ := List.mem_filter.1 hl
    have hrel : l.relation = .structural := by simpa using hrel
    obtain ⟨-, head, hhead⟩ := cached_of_mem_linkOrder hchanges hmem (by rw [hrel]; decide)
    exact Option.isSome_iff_exists.2 ⟨head, hhead⟩

theorem Coherent.length_edgesLabeled_of_add (hc : Coherent c) (h : c.add a source root = .ok c') :
    (c'.graph.edgesLabeled Relation.structural.label).length + 1 =
      (c.graph.edgesLabeled Relation.structural.label).length + (a.visits (n + 1) root).length := by
  obtain ⟨c₁, changes, hvertices, hchanges, rfl⟩ := add_eq_ok_iff.1 h
  have htakes := takesUp_of_foldlM hvertices
  have hc₁ := hc.foldlM_addVertex hvertices
  have harcs : ∀ l ∈ (a.linkOrder (n + 1) root).filter (·.relation == .structural),
      (linkArc? a (c₁.handles[·]?) c₁.graph.idAt? l).isSome := by
    intro l hl
    obtain ⟨hmem, hrel⟩ := List.mem_filter.1 hl
    have hrel : l.relation = .structural := by simpa using hrel
    have hne : l.relation ≠ .type := by rw [hrel]; decide
    obtain ⟨⟨tail, htail⟩, head, hhead⟩ := cached_of_mem_linkOrder hchanges hmem hne
    refine EdgeWalk.isSome_linkArc? hne (v := tail + 1) (w := head + 1) ?_ ?_
    · rw [htail, Option.bind_some, hc₁.idAt? (hc₁.cacheBound _ _ htail)]
    · rw [hhead, Option.bind_some, hc₁.idAt? (hc₁.cacheBound _ _ hhead)]
  rw [length_edgesLabeled, length_edgesLabeled, arcs_foldl_apply,
    filterMap_arc?_changesWithin hchanges, htakes.arcs, List.filter_append, List.length_append,
    filter_linkArcs, List.filterMap_length_eq_length.2 harcs, Ast.visits_eq, List.length_cons,
    List.length_map]
  omega

theorem add_of_process (h : (c.process a source root).2 = .ok ()) :
    c.add a source root = .ok (c.process a source root).1 := by
  rw [process] at h ⊢
  cases hadd : c.add a source root with
  | error e =>
    rw [hadd] at h
    cases h
  | ok c' => rfl

/-! ## A new conversion -/

section new

variable (hadd : (∅ : Conversion).add a source root = .ok c')

include hadd

theorem size_of_add_empty : c'.graph.vertices.size = (a.preorder root).length :=
  (size_of_add hadd).trans (Nat.zero_add _)

theorem length_edgesLabeled_add_one :
    (c'.graph.edgesLabeled Relation.structural.label).length + 1 =
      (framesOf ∅ a source root).length := by
  have hedges := coherent_empty.length_edgesLabeled_of_add hadd
  have hnone : ((∅ : Conversion).graph.edgesLabeled Relation.structural.label).length = 0 := by
    rw [length_edgesLabeled]
    rfl
  rwa [hnone, Nat.zero_add, ← framesOf_of_add hadd] at hedges

theorem mem_preorder_of_mem_framesOf {i : Fin n} (hi : i ∈ framesOf ∅ a source root) :
    a.identity i ∈ (a.preorder root).map a.identity := by
  rw [framesOf_of_add hadd] at hi
  have hsome := cached_of_mem_visits hadd i hi
  obtain ⟨c₁, g, htakes, -, hc'⟩ := exists_takesUp_of_add hadd
  rw [hc', htakes.isSome_iff] at hsome
  exact hsome.resolve_left Bool.false_ne_true

/-- The nodes of the pre-order are among the frames, and there are no more of these exactly if no
node has targets in a later structural entry. -/
theorem sublist_framesOf : (a.preorder root).Sublist (framesOf ∅ a source root) ∧
    ((a.preorder root).length = (framesOf ∅ a source root).length ↔
      ∀ i ∈ a.preorder root, Ast.structuralTargets (a.links i) = a.children i) := by
  obtain ⟨c₁, -, htakes, -, -⟩ := exists_takesUp_of_add hadd
  have hlength := Ast.length_le_of_nodup htakes.nodup
  have hvisits := (Ast.spans_preorder htakes.nodup).sublist_visits (show _ ≤ n + 1 by omega)
  rwa [List.flatMap_singleton, ← framesOf_of_add hadd] at hvisits

theorem length_framesOf_le (hnodup : ((framesOf ∅ a source root).map a.identity).Nodup) :
    (framesOf ∅ a source root).length ≤ (a.preorder root).length := by
  have hsub : (framesOf ∅ a source root).map a.identity ⊆ (a.preorder root).map a.identity := by
    intro id hid
    obtain ⟨i, hi, rfl⟩ := List.mem_map.1 hid
    exact mem_preorder_of_mem_framesOf hadd hi
  have hle := (hnodup.subperm hsub).length_le
  rwa [List.length_map, List.length_map] at hle

end new

/-- **Both walks.** If a tree is taken up by a new conversion, the edge walk opens frames for the
nodes of the pre-order, and adds a structural edge for each frame but the first. It opens no others
if and only if no node has targets in a later structural entry, and so if and only if no identity
has two frames, or there is a structural edge for each vertex but one. -/
theorem framesOf_process (a : Ast n) (source : AttributeSource n) (root : Fin n)
    (h : (process ∅ a source root).2 = .ok ()) :
    let g := (process ∅ a source root).1.graph
    let frames := framesOf ∅ a source root
    let structural := g.edgesLabeled Relation.structural.label
    g.vertices.size = (a.preorder root).length ∧
    structural.length + 1 = frames.length ∧
    (a.preorder root).Sublist frames ∧
    (∀ i ∈ frames, a.identity i ∈ (a.preorder root).map a.identity) ∧
    [frames = a.preorder root,
      (frames.map a.identity).Nodup,
      structural.length + 1 = g.vertices.size,
      ∀ i ∈ a.preorder root, Ast.structuralTargets (a.links i) = a.children i].TFAE := by
  intro g frames structural
  have hadd := add_of_process h
  have hsize : g.vertices.size = (a.preorder root).length := size_of_add_empty hadd
  have hedges : structural.length + 1 = frames.length := length_edgesLabeled_add_one hadd
  obtain ⟨hsub, hiff⟩ : (a.preorder root).Sublist frames ∧
    ((a.preorder root).length = frames.length ↔ _) := sublist_framesOf hadd
  refine ⟨hsize, hedges, hsub, fun i => mem_preorder_of_mem_framesOf hadd, ?_⟩
  tfae_have 1 → 2 := by
    intro heq
    obtain ⟨c₁, -, htakes, -, -⟩ := exists_takesUp_of_add hadd
    rw [heq]
    exact htakes.nodup
  tfae_have 2 → 3 := by
    intro hnodup
    have hle : frames.length ≤ (a.preorder root).length := length_framesOf_le hadd hnodup
    have hge := hsub.length_le
    omega
  tfae_have 3 → 4 := by
    intro hcount
    exact hiff.1 (by omega)
  tfae_have 4 → 1 := by
    intro htargets
    exact (hsub.eq_of_length (hiff.2 htargets)).symm
  tfae_finish

theorem framesOf_process_namedFile :
    framesOf ∅ (namedFile 1 2) .none node₀ = [node₀, node₁] := by
  have hok : (process ∅ (namedFile 1 2) .none node₀).2 = .ok () := by
    rw [process_snd_eq_ok_iff, failure?_eq_none_iff]
    obtain ⟨c', hadd, -⟩ := map_eq_ok_iff.1 graphOf_namedFile.1
    exact ⟨c', hadd⟩
  have hpreorder : (namedFile 1 2).preorder node₀ = [node₀, node₁] :=
    preorder_namedFile (by decide)
  obtain ⟨-, -, -, -, hsame⟩ := framesOf_process (namedFile 1 2) .none node₀ hok
  rw [hpreorder] at hsame
  exact (hsame.out 0 3).2 (by decide)

/-- A file whose only leaf is in two structural entries. -/
def doubledLeaf : Ast 2 :=
  ⟨#v[⟨1, "File", "x", none, none, [(.structural, [node₁]), (.structural, [node₁])]⟩,
    ⟨2, "Leaf", "x", some node₀, none, []⟩]⟩

theorem preorder_doubledLeaf : doubledLeaf.preorder node₀ = [node₀, node₁] :=
  preorder_pair rfl rfl (by decide)

def doubledLeafGraph : PropertyGraph :=
  [Change.edge .structural 0 1, .edge .structural 0 1].foldl Change.apply
    (((∅ : PropertyGraph).addVertex ⟨1, properties doubledLeaf node₀ ∅⟩).addVertex
      ⟨2, properties doubledLeaf node₁ ∅⟩)

/-- The tree is taken up, with a vertex for each of its two nodes. Yet the edge walk opens two
frames for the leaf, and there are two structural edges to it. -/
theorem framesOf_doubledLeaf :
    let g := (process ∅ doubledLeaf .none node₀).1.graph
    (process ∅ doubledLeaf .none node₀).2 = .ok () ∧
    doubledLeaf.preorder node₀ = [node₀, node₁] ∧
    framesOf ∅ doubledLeaf .none node₀ = [node₀, node₁, node₁] ∧
    g.vertices.size = 2 ∧
    (g.edgesLabeled Relation.structural.label).map (fun e => (e.source, e.target)) =
      [(1, 2), (1, 2)] := by
  have hadd : ∃ c', (∅ : Conversion).add doubledLeaf .none node₀ = .ok c' ∧
      c'.graph = doubledLeafGraph := by
    simp only [add_eq, start_eq, preorder_doubledLeaf]
    exact ⟨_, rfl, rfl⟩
  obtain ⟨c', hadd, hgraph⟩ := hadd
  have hprocess : process ∅ doubledLeaf .none node₀ = (c', .ok ()) := by rw [process, hadd]
  rw [hprocess]
  refine ⟨rfl, preorder_doubledLeaf, ?_, ?_, ?_⟩
  · rw [framesOf_of_add hadd]
    rfl
  · rw [hgraph]
    rfl
  · rw [hgraph, PropertyGraph.edgesLabeled, PropertyGraph.edges, Array.toList_map]
    decide

end Conversion

end CodeGraph

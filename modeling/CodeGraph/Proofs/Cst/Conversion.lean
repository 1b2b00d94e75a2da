import CodeGraph.Proofs.Cst.Links
import CodeGraph.Proofs.SyntaxTree.Conversion

/-!
# Sources convert

Whatever syntax tree a source in pre-order becomes, in whichever language and configuration, it is
regular, and so it becomes a graph (`graphOf_of_toSyntaxTree`).
-/

namespace CodeGraph.Cst

open Attempt Conversion SyntaxTree

theorem PreOrdered.exists_add_of_toSyntaxTree {c : Cst} (hc : c.PreOrdered) {language : Language}
    {source path : String} {config : Config} {number : UInt32} {t : SyntaxTree}
    (h : c.toSyntaxTree source language.tables config path number = .ok t) :
    ∃ root : Fin t.size, root.val = 0 ∧
      ∃ c', (∅ : Conversion).add t.ast (t.sourceAttributes config.spans) root = .ok c' := by
  have hregular := hc.regular_of_toSyntaxTree h
  exact ⟨⟨0, hregular.nonempty⟩, rfl, hregular.exists_add rfl fun i => Bool.false_ne_true⟩

theorem PreOrdered.exists_process_of_toSyntaxTree {c : Cst} (hc : c.PreOrdered)
    {language : Language} {source path : String} {config : Config} {number : UInt32}
    {t : SyntaxTree}
    (h : c.toSyntaxTree source language.tables config path number = .ok t) :
    ∃ root : Fin t.size, root.val = 0 ∧
      ((∅ : Conversion).process t.ast (t.sourceAttributes config.spans) root).2 = .ok () := by
  obtain ⟨root, hroot, c', hadd⟩ := hc.exists_add_of_toSyntaxTree h
  refine ⟨root, hroot, ?_⟩
  rw [Conversion.process, hadd]

/-- **A source always converts.** If the rows in pre-order of a source become a syntax tree, that
tree has the node with key 0 as its root and becomes a graph, with a vertex for each node, which has
the id one above the key, and with a structural edge for each node but the root. -/
theorem graphOf_of_toSyntaxTree {c : Cst} (hc : c.PreOrdered) (language : Language)
    (source path : String) (config : Config) (number : UInt32) {t : SyntaxTree}
    (h : c.toSyntaxTree source language.tables config path number = .ok t) :
    ∃ root : Fin t.size, root.val = 0 ∧ t.root? = .ok (some root) ∧
      t.preorder? root = .ok (List.finRange t.size) ∧
      ∃ c', (∅ : Conversion).add t.ast (t.sourceAttributes config.spans) root = .ok c' ∧
        graphOf t.ast (t.sourceAttributes config.spans) root = .ok c'.graph ∧
        c'.graph.vertices.size = t.size ∧
        (∀ key : Fin t.size,
          (c'.handles[t.identity key]?).bind c'.graph.idAt? = some (key.val + 1)) ∧
        (c'.graph.edgesLabeled "STRUCTURAL").length = t.size - 1 := by
  have hregular := hc.regular_of_toSyntaxTree h
  obtain ⟨root, hroot, c', hadd⟩ := hc.exists_add_of_toSyntaxTree h
  have hrootKey : t.root? = .ok (some root) := by
    rw [SyntaxTree.root?, hregular.root]
    simp only [nodeName?_eq_some_iff.2 hroot]
  refine ⟨root, hroot, hrootKey, hregular.preorder?_eq hroot, c', hadd, ?_, ?_, fun key => ?_, ?_⟩
  · exact map_eq_ok_iff.2 ⟨c', hadd, rfl⟩
  · exact (hregular.size_of_add hroot hadd).trans (Nat.zero_add _)
  · rw [hregular.idAt?_of_add hroot hadd, Nat.add_comm]
    rfl
  · have hcount := hregular.length_edgesLabeled_of_add hroot hadd
    rw [length_edgesLabeled (∅ : Conversion).graph] at hcount
    exact Nat.eq_sub_of_add_eq (hcount.trans (Nat.zero_add _))

/-- The rows of a parameter with its type. -/
def parameterRows : Cst := ofRows
  #[⟨none, "source_file", true, false, false, none, 0, 5, 0, 0, 0, 5⟩,
    ⟨some 0, "parameter", true, false, false, none, 0, 4, 0, 0, 0, 4⟩,
    ⟨some 1, "identifier", true, false, false, some "pattern", 0, 1, 0, 0, 0, 1⟩,
    ⟨some 1, ":", false, false, false, none, 1, 2, 0, 1, 0, 2⟩,
    ⟨some 1, "type_identifier", true, false, false, some "type", 3, 4, 0, 3, 0, 4⟩]

theorem preOrdered_parameterRows : parameterRows.PreOrdered := by decide +kernel

theorem graphOf_of_toSyntaxTree_parameterRows :
    parameterRows.PreOrdered ∧ ∃ t,
      parameterRows.toSyntaxTree "x: T\n" Language.rust.tables .standard "a.rs" 0 = .ok t ∧
      ∃ root g, graphOf t.ast (t.sourceAttributes true) root = .ok g ∧
        g.vertices.size = 4 ∧ (g.edgesLabeled "STRUCTURAL").length = 3 := by
  have hsize : (parameterRows.toSyntaxTree "x: T\n" Language.rust.tables .standard "a.rs" 0).map
      (·.size) = .ok 4 := by decide +kernel
  obtain ⟨t, ht, hfour⟩ := map_eq_ok_iff.1 hsize
  obtain ⟨root, -, -, -, c', -, hgraph, hvertices, -, hedges⟩ :=
    graphOf_of_toSyntaxTree preOrdered_parameterRows .rust "x: T\n" "a.rs" .standard 0 ht
  rw [hfour] at hvertices hedges
  exact ⟨preOrdered_parameterRows, t, ht, root, c'.graph, hgraph, hvertices, hedges⟩

end CodeGraph.Cst

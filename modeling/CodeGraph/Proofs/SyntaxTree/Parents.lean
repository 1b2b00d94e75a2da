import CodeGraph.Proofs.Conversion.Contents
import CodeGraph.Proofs.Conversion.Forest
import CodeGraph.Proofs.SyntaxTree.Histories

/-!
# Recorded parents and structural edges

A node of a syntax tree records the first parent that it was given, while its structural links may
have come from anywhere. If the tree is converted, both agree: a recorded parent has its node among
its children, and a conversion refuses a node that it meets twice. So the only structural edge to a
node whose parent was converted with it comes from that parent (`parent_edges_of_process`).
-/

namespace CodeGraph.SyntaxTree

variable {t : SyntaxTree} {edits : List Edit}

theorem parent?_ast_of_parentKey? {i p : Fin t.size} (h : t.parentKey? i = some p.val) :
    t.ast.parent? i = some p := by
  obtain ⟨x, hx⟩ := exists_node i
  rw [parentKey?, hx, Option.bind_some] at h
  rw [parent?_ast hx, h]
  exact nodeName?_eq_some_iff.2 rfl

theorem MadeBy.structuralCount_le_one (h : t.MadeBy edits) (i : Fin t.size) :
    t.ast.structuralCount i ≤ 1 := by
  obtain ⟨x, hx⟩ := exists_node i
  refine SyntaxTree.structuralCount_le_one hx ?_
  rw [h.links i x hx, map_fst_groupLinks]
  exact Lists.nodup_eraseDups _

theorem MadeBy.mem_children_ast (h : t.MadeBy edits) {i p : Fin t.size}
    (hparent : t.parentKey? i = some p.val) : i ∈ t.ast.children p := by
  obtain ⟨x, hx⟩ := exists_node p
  rw [children_ast hx, h.links p x hx, targets_groupLinks, List.mem_filterMap]
  exact ⟨i, (h.of_parentKey? hparent).2, nodeName?_eq_some_iff.2 rfl⟩

theorem MadeBy.preorder?_eq (h : t.MadeBy edits) (root : Fin t.size) :
    t.preorder? root = .ok (t.ast.preorder root) := by
  refine if_pos (List.all_eq_true.2 fun i _ => ?_)
  rw [h.links?_eq i.isLt]
  rfl

open Conversion in
/-- **Recorded parents.** Let a tree be made by calls that only name nodes which are there, and let
a conversion take it up, whatever it was called for before. A node that has its recorded parent
among the nodes that are collected with it has one structural edge to it, and that comes from the
parent. So the kind that its vertex gives of the parent is the kind of the edge's source. -/
theorem parent_edges_of_process (edits : List TreeCall) (hrange : KeysInRange edits)
    (t : SyntaxTree) (ht : t ∈ treesOf edits) (calls : List Call)
    (source : AttributeSource t.size) (root : Fin t.size)
    (hok : ((runCalls ∅ calls).1.process t.ast source root).2 = .ok ()) :
    let c := ((runCalls ∅ calls).1.process t.ast source root).1
    t.preorder? root = .ok (t.ast.preorder root) ∧
    ∀ i ∈ t.ast.preorder root, i ≠ root →
      ∀ p ∈ t.ast.preorder root, t.parentKey? i = some p.val →
        ∃ u ∈ c.graph.vertices, ∃ v ∈ c.graph.vertices, ∃ e,
          c.vertexId? (t.ast.identity p) = some u.id ∧
          c.vertexId? (t.ast.identity i) = some v.id ∧
          (c.graph.edgesLabeled Relation.structural.label).filter (·.target == v.id) = [e] ∧
          e.source = u.id ∧ v.parentKind? = u.kind? ∧ u.kind? = some (t.ast.kind p) := by
  intro c
  have hadd : (runCalls ∅ calls).1.add t.ast source root = .ok c := add_of_process hok
  have hcoherent : Coherent (runCalls ∅ calls).1 := coherent_empty.runCalls calls
  obtain ⟨place, hplace⟩ := List.mem_iff_getElem?.1 ht
  obtain ⟨history, -, hmade⟩ := Lists.getElem?_of_forall₂ (madeBy_of_keysInRange hrange) hplace
  have hone : ∀ j ∈ t.ast.preorder root, t.ast.structuralCount j ≤ 1 :=
    fun j _ => hmade.structuralCount_le_one j
  refine ⟨hmade.preorder?_eq root, fun i hi hroot p hp hparent => ?_⟩
  obtain ⟨below, hbelow⟩ := List.mem_iff_getElem?.1 hi
  obtain ⟨above, habove⟩ := List.mem_iff_getElem?.1 hp
  obtain ⟨u, _, hu, huid, -, hsaysAbove⟩ := contents_of_add hone hadd habove
  obtain ⟨v, _, hv, hvid, -, hsaysBelow⟩ := contents_of_add hone hadd hbelow
  -- A node that is met twice is refused, so no second structural link leads to this one.
  obtain ⟨e, hedge, hsource⟩ := hcoherent.exists_edge_of_add hone hadd hbelow habove
    (hmade.mem_children_ast hparent) hroot
  have hkind : u.properties.get? "type" = some (.text (t.ast.kind p)) :=
    Record.get?_eq_some_iff.2 ((hsaysAbove _ _).2 .kind)
  have hparentKind : v.properties.get? "parentType" = some (.text (t.ast.kind p)) :=
    Record.get?_eq_some_iff.2 ((hsaysBelow _ _).2 (.parent p (parent?_ast_of_parentKey? hparent)))
  refine ⟨u, Array.mem_of_getElem? hu, v, Array.mem_of_getElem? hv, e, ?_, ?_, ?_, ?_, ?_, ?_⟩
  · rw [vertexId?, idAt?_of_add hadd habove, huid]
  · rw [vertexId?, idAt?_of_add hadd hbelow, hvid]
  · rw [hvid, hedge]
  · rw [hsource, huid]
  · rw [Vertex.parentKind?, Vertex.kind?, Vertex.text?, Vertex.text?, PropertyName.parentType,
      PropertyName.type, hparentKind, hkind]
  · rw [Vertex.kind?, Vertex.text?, PropertyName.type, hkind]
    rfl

/-- A file with two leaves. One was given a second parent, which is not below the file, and the
other was linked without one. -/
def attachedCalls : List TreeCall :=
  let node (kind : String) : NodeData := ⟨kind, "", false, none, none⟩
  [.create, .edit 0 (.addNode (node "File")), .edit 0 (.addNode (node "Leaf")),
    .edit 0 (.addNode (node "Leaf")), .edit 0 (.addNode (node "Block")), .edit 0 (.addChild 0 1),
    .edit 0 (.addChild 3 1), .edit 0 (.link 0 .structural 2)]

def attachedTree : SyntaxTree :=
  ⟨0, #[⟨⟨"File", "", false, none, none⟩, none, [(.structural, [1, 2])]⟩,
    ⟨⟨"Leaf", "", false, none, none⟩, some 0, []⟩, ⟨⟨"Leaf", "", false, none, none⟩, none, []⟩,
    ⟨⟨"Block", "", false, none, none⟩, none, [(.structural, [1])]⟩], some 0, none⟩

theorem treesOf_attachedCalls : treesOf attachedCalls = [attachedTree] := by decide

namespace attachedTree

def file : Fin attachedTree.size := ⟨0, Nat.zero_lt_succ 3⟩

def child : Fin attachedTree.size := ⟨1, Nat.succ_lt_succ (Nat.zero_lt_succ 2)⟩

def linked : Fin attachedTree.size :=
  ⟨2, Nat.succ_lt_succ (Nat.succ_lt_succ (Nat.zero_lt_succ 1))⟩

theorem identity_inj (i j : Fin attachedTree.size) :
    attachedTree.ast.identity i = attachedTree.ast.identity j ↔ i = j := by
  rw [identity_ast, identity_ast]
  refine ⟨fun h => Fin.ext (attachedTree.identity_injective ?_ ?_ h), fun h => h ▸ rfl⟩
  · exact Nat.lt_trans i.isLt (by decide)
  · exact Nat.lt_trans j.isLt (by decide)

theorem preorder_file : attachedTree.ast.preorder file = [file, child, linked] := by
  rw [Ast.preorder_eq_listed, Ast.listed_cons_fresh _ (by simp)]
  change file :: attachedTree.ast.listed [child, linked] _ = _
  rw [Ast.listed_cons_fresh _ (by simp [identity_inj]; decide)]
  change file :: child :: attachedTree.ast.listed [linked] _ = _
  rw [Ast.listed_cons_fresh _ (by simp [identity_inj]; decide)]
  change file :: child :: linked :: attachedTree.ast.listed [] _ = _
  rw [Ast.listed_nil]

open Conversion in
theorem process_file : ((∅ : Conversion).process attachedTree.ast .none file).2 = .ok () := by
  have hone : ∀ i, attachedTree.ast.structuralCount i ≤ 1 := by decide
  have hlinks : ∀ i, ∀ entry ∈ attachedTree.ast.links i, entry.1 = .structural := by decide
  rw [process_eq_ok_iff fun i _ => hone i]
  constructor
  · rw [preorder_file]
    exact List.Nodup.map (fun i j heq => (identity_inj i j).1 heq) (by decide)
  · exact fun i _ => Bool.false_ne_true
  · exact fun i _ => ⟨∅, rfl, fun e he => absurd he List.not_mem_nil⟩
  · exact fun i _ targets he => absurd (hlinks i _ he) (by simp)
  · exact fun i _ relation targets he hother => absurd (hlinks i _ he) hother

end attachedTree

open attachedTree in
theorem parent_edges_of_process_attachedTree :
    let c := ((∅ : Conversion).process attachedTree.ast .none file).1
    KeysInRange attachedCalls ∧ ∃ v ∈ c.graph.vertices, ∃ e,
      (c.graph.edgesLabeled Relation.structural.label).filter (·.target == v.id) = [e] ∧
      c.vertexId? (attachedTree.ast.identity file) = some e.source ∧
      c.vertexId? (attachedTree.ast.identity child) = some e.target ∧
      v.parentKind? = some "File" := by
  have hrange : KeysInRange attachedCalls := by decide
  have hmem : attachedTree ∈ treesOf attachedCalls := by
    rw [treesOf_attachedCalls]
    exact List.mem_singleton_self _
  obtain ⟨-, hedges⟩ := parent_edges_of_process attachedCalls hrange attachedTree hmem [] .none file
    process_file
  rw [preorder_file] at hedges
  obtain ⟨u, -, v, hv, e, hu, hvid, hedge, hsource, hkind, hfile⟩ :=
    hedges child (by decide) (by decide) file (by decide) rfl
  have htarget : e.target = v.id := by
    have he : e ∈ [e] := List.mem_singleton_self e
    rw [← hedge, List.mem_filter] at he
    simpa using he.2
  exact ⟨hrange, v, hv, e, hedge, hsource ▸ hu, htarget ▸ hvid, hkind.trans hfile⟩

end CodeGraph.SyntaxTree

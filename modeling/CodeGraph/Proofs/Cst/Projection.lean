import CodeGraph.Proofs.Conversion.Projection
import CodeGraph.Proofs.Cst.Conversion
import CodeGraph.Proofs.SyntaxTree.Images

/-!
# Disabled relations

The syntax tree of a source under a configuration has the nodes of the one under the same with no
relation disabled, without the links of those that are (`nodes_of_toSyntaxTree`): links are only
added one after the other, and to leave some out is the same before as after. So its graph is a
projection (`project_of_toSyntaxTree`).
-/

namespace CodeGraph

namespace SyntaxTree

open Attempt

/-! ## Links that are kept -/

variable {t t' : SyntaxTree} {keep : Relation → Bool}

theorem filter_insertLink (keep : Relation → Bool) (relation : Relation) (target : Nat)
    (links : List (Relation × List Nat)) :
    (insertLink relation target links).filter (fun e => keep e.1) =
      if keep relation then insertLink relation target (links.filter fun e => keep e.1)
      else links.filter fun e => keep e.1 := by
  induction links with
  | nil =>
    by_cases hrel : keep relation = true
    · simp [insertLink, hrel]
    · simp [insertLink, hrel]
  | cons entry rest ih =>
    obtain ⟨other, targets⟩ := entry
    by_cases heq : other = relation
    · subst heq
      by_cases hrel : keep other = true
      · simp [insertLink, hrel]
      · simp [insertLink, hrel]
    · rw [insertLink, if_neg heq, List.filter_cons, List.filter_cons, ih]
      by_cases hother : keep other = true
      · by_cases hrel : keep relation = true
        · simp [insertLink, heq, hother, hrel]
        · simp [hother, hrel]
      · simp [hother]

theorem nodes_link_restrict (h : t'.nodes = t.nodes.map (Node.restrict keep)) (source : Nat)
    (relation : Relation) (target : Nat) :
    (if keep relation then t'.link source relation target else t').nodes =
      (t.link source relation target).nodes.map (Node.restrict keep) := by
  apply Array.ext_getElem?
  intro k
  rw [Array.getElem?_map, getElem?_link]
  by_cases hrel : keep relation = true
  · rw [if_pos hrel, getElem?_link, h, Array.getElem?_map]
    by_cases hk : source = k
    · rw [if_pos hk, if_pos hk, Option.map_map, Option.map_map]
      congr 1
      funext x
      simp [Node.restrict, filter_insertLink, hrel]
    · rw [if_neg hk, if_neg hk]
  · rw [if_neg hrel, h, Array.getElem?_map]
    by_cases hk : source = k
    · rw [if_pos hk, Option.map_map]
      congr 1
      funext x
      simp [Node.restrict, filter_insertLink, hrel]
    · rw [if_neg hk]

theorem Shaped.map_restrict (h : t.Shaped) (hkeep : keep .structural = true) :
    t.nodes.map (Node.restrict keep) = t.nodes := by
  apply Array.ext_getElem?
  intro k
  rw [Array.getElem?_map]
  cases hx : t.nodes[k]? with
  | none => rfl
  | some x =>
    have hlinks : x.links.filter (fun e => keep e.1) = x.links := by
      rw [h k x hx, shapeLinks]
      split
      · rfl
      · simp [hkeep]
    rw [Option.map_some, Node.restrict, hlinks]

/-- The tree with another number. -/
def renumber (t : SyntaxTree) (number : UInt32) : SyntaxTree := { t with number := number }

/-! ## Attributes from the source -/

section attributes

variable (h : t.Sound) (h' : t'.Sound) (hnodes : t'.nodes = t.nodes.map (Node.restrict keep))

include hnodes

theorem parentKey?_restrict (k : Nat) : t'.parentKey? k = t.parentKey? k := by
  unfold parentKey?
  rw [hnodes, Array.getElem?_map]
  cases t.nodes[k]? <;> rfl

theorem keysBelow_restrict (k : Nat) : t'.keysBelow k = t.keysBelow k := by
  unfold keysBelow
  rw [← size_of_restrict hnodes]
  simp only [parentKey?_restrict hnodes]

include h h'

theorem declaredName?_restrict {key : Nat} (hkey : key < t.size) :
    t'.declaredName? key = t.declaredName? key := by
  have hkey' : key < t'.size := size_of_restrict hnodes ▸ hkey
  unfold declaredName? childByField?
  rw [h.children?_eq hkey, h'.children?_eq hkey', keysBelow_restrict hnodes]
  have hfield : ∀ k : Nat,
      (t'.nodes[k]?.bind (·.data.field)) = t.nodes[k]?.bind (·.data.field) := by
    intro k
    rw [hnodes, Array.getElem?_map]
    cases t.nodes[k]? <;> rfl
  have hname : ∀ k : Nat, t'.nodes[k]?.bind (·.name?) = t.nodes[k]?.bind (·.name?) := by
    intro k
    rw [hnodes, Array.getElem?_map]
    cases t.nodes[k]? <;> rfl
  simp only [bind_eq, ok_bind, hfield, hname]

/-- The links of other relations do not show in the attributes of a node. -/
theorem sourceAttributes_restrict (hpath : t'.sourcePath = t.sourcePath) (spans : Bool)
    (i : Fin t.size) :
    t'.sourceAttributes spans (i.cast (size_of_restrict hnodes)) = t.sourceAttributes spans i := by
  obtain ⟨x, hx⟩ := exists_node i
  unfold sourceAttributes sourceAttributes? node?
  rw [Fin.val_cast, getElem?_of_restrict hnodes hx, hx,
    declaredName?_restrict h h' hnodes i.isLt, hpath]
  rfl

end attributes

theorem Sound.root?_eq {t : SyntaxTree} (h : t.Sound) {root : Fin t.size} (hroot : root.val = 0) :
    t.root? = .ok (some root) := by
  unfold root?
  rw [h.root]
  simp only [nodeName?_eq_some_iff.2 hroot]

end SyntaxTree

namespace Outline

open Attempt SyntaxTree

variable {o : Outline} {keep : Relation → Bool}

theorem nodes_withLinks {t t' : SyntaxTree} (h : t'.nodes = t.nodes.map (Node.restrict keep))
    (links : List Link) :
    (withLinks t' (links.filter fun l => keep l.relation)).nodes =
      (withLinks t links).nodes.map (Node.restrict keep) := by
  induction links generalizing t t' with
  | nil => exact h
  | cons l rest ih =>
    have hstep := nodes_link_restrict h l.source l.relation l.target
    by_cases hrel : keep l.relation = true
    · rw [if_pos hrel] at hstep
      rw [List.filter_cons_of_pos (p := fun l : Link => keep l.relation) hrel, withLinks_cons,
        withLinks_cons]
      exact ih hstep
    · rw [if_neg hrel] at hstep
      rw [List.filter_cons_of_neg (p := fun l : Link => keep l.relation) hrel, withLinks_cons]
      exact ih hstep

theorem sourcePath_withLinks (t : SyntaxTree) (links : List Link) :
    (withLinks t links).sourcePath = t.sourcePath := by
  induction links generalizing t with
  | nil => rfl
  | cons l rest ih => rw [withLinks_cons, ih]; rfl

theorem addRow_renumber (o : Outline) (t : SyntaxTree) (number : UInt32) (i : Nat) :
    o.addRow (t.renumber number) i = (o.addRow t i).map (·.renumber number) := by
  unfold addRow
  cases o.cst.rows[i]? with
  | none => rfl
  | some r =>
    simp only [bind_eq]
    cases o.nodeData i r with
    | error e => rfl
    | ok data =>
      simp only [ok_bind]
      cases (o.scopes i).head? with
      | none => rfl
      | some parent =>
        unfold addChild
        rw [ok_map]
        by_cases hlt : parent < (t.addNode data).size
        · rw [if_pos hlt]
          exact congrArg Except.ok (if_pos hlt)
        · rw [if_neg hlt]
          exact congrArg Except.ok (if_neg hlt)

theorem shape_renumber (o : Outline) (number number' : UInt32) (path : String) :
    o.shape number' path = (o.shape number path).map (·.renumber number') := by
  have hrows : ∀ (rows : List Nat) (t : SyntaxTree),
      rows.foldlM o.addRow (t.renumber number') =
        (rows.foldlM o.addRow t).map (·.renumber number') := by
    intro rows
    induction rows with
    | nil => exact fun t => rfl
    | cons i rest ih =>
      intro t
      rw [List.foldlM_cons, List.foldlM_cons, bind_eq, bind_eq, addRow_renumber]
      cases o.addRow t i with
      | error e => rfl
      | ok t₁ => exact ih t₁
  exact hrows o.kept ((SyntaxTree.empty number).setSourcePath path)

end Outline

namespace Config

/-- The configuration with no relation disabled. -/
def enabled (config : Config) : Config := { config with disabledRelations := [] }

/-- The disabled relations that can be disabled. -/
def dropped (config : Config) : List Relation := config.disabledRelations.filter (· ≠ .structural)

theorem emits_enabled (config : Config) (relation : Relation) :
    config.enabled.emits relation = true := by
  simp [enabled, emits]

theorem emits_eq_true_iff {config : Config} {relation : Relation} :
    config.emits relation = true ↔ relation ∉ config.dropped := by
  unfold emits dropped
  rw [List.mem_filter, Bool.or_eq_true, beq_iff_eq, Bool.not_eq_true', List.contains_eq_mem,
    decide_eq_false_iff_not, decide_eq_true_eq]
  by_cases h : relation = .structural
  · simp [h]
  · simp [h]

theorem structural_not_mem_dropped (config : Config) : .structural ∉ config.dropped := by
  have hemits : config.emits .structural = true := rfl
  exact emits_eq_true_iff.1 hemits

end Config

namespace Cst

open Attempt Outline SyntaxTree Conversion

variable {c : Cst} {source path : String} {tables : Language.Tables} {config : Config}
  {number number₀ : UInt32} {t t₀ : SyntaxTree}

theorem toSyntaxTree_eq_error_iff {e : SourceError} :
    c.toSyntaxTree source tables config path number = .error e ↔
      c.toSyntaxTree source tables config.enabled path number₀ = .error e := by
  have hshape : (make source c tables config.enabled).shape number₀ path =
      ((make source c tables config).shape number path).map (·.renumber number₀) :=
    shape_renumber (make source c tables config) number number₀ path
  have hstrict : config.enabled.strict = config.strict := rfl
  unfold Cst.toSyntaxTree
  rw [hstrict]
  cases if config.strict then c.firstError? else none with
  | some r => exact Iff.rfl
  | none =>
    simp only [bind_eq]
    rw [hshape]
    cases (make source c tables config).shape number path with
    | error defect => exact Iff.rfl
    | ok shape =>
      constructor
      · intro h
        cases h
      · intro h
        cases h

theorem nodes_of_toSyntaxTree (hc : c.PreOrdered)
    (h : c.toSyntaxTree source tables config path number = .ok t)
    (h₀ : c.toSyntaxTree source tables config.enabled path number₀ = .ok t₀) :
    t.nodes = t₀.nodes.map (Node.restrict config.emits) ∧ t.sourcePath = t₀.sourcePath := by
  obtain ⟨shape, hshape, rfl⟩ := exists_shape h
  obtain ⟨shape₀, hshape₀, rfl⟩ := exists_shape h₀
  have hshape' : (make source c tables config).shape number₀ path = .ok shape₀ := hshape₀
  rw [shape_renumber _ number, hshape, ok_map, Except.ok.injEq] at hshape'
  subst hshape'
  have hshaped := (copies_of_shape (ordered_make hc source tables config) hshape).shaped
  have hall : (make source c tables config.enabled).emitted config.enabled =
      (make source c tables config).links := by
    unfold emitted
    rw [List.filter_eq_self.2 fun l _ => config.emits_enabled l.relation]
    rfl
  rw [hall, sourcePath_withLinks, sourcePath_withLinks]
  have hkeep : config.emits .structural = true := rfl
  have hnodes : shape.nodes =
      (shape.renumber number₀).nodes.map (Node.restrict config.emits) :=
    (hshaped.map_restrict hkeep).symm
  exact ⟨nodes_withLinks hnodes _, rfl⟩

/-- **Disabling relations projects.** Whether a source in pre-order becomes a syntax tree does not
depend on the disabled relations. The tree has the nodes that it has with none disabled, with the
links of all others. Its graph, which there is in each language, has the same vertices, without
their references if types are disabled, and the edges of all relations but the disabled ones in the
same order; shape cannot be disabled. -/
theorem project_of_toSyntaxTree {c : Cst} (hc : c.PreOrdered) (tables : Language.Tables)
    (source path : String) (config : Config) (number number₀ : UInt32) :
    (∀ e, c.toSyntaxTree source tables config path number = .error e ↔
      c.toSyntaxTree source tables config.enabled path number₀ = .error e) ∧
    ∀ t t₀, c.toSyntaxTree source tables config path number = .ok t →
      c.toSyntaxTree source tables config.enabled path number₀ = .ok t₀ →
      t.nodes = t₀.nodes.map (Node.restrict config.emits) ∧
      ∃ root root₀, t.root? = .ok (some root) ∧ t₀.root? = .ok (some root₀) ∧
        (∀ g₀, graphOf t₀.ast (t₀.sourceAttributes config.spans) root₀ = .ok g₀ →
          ∃ g, graphOf t.ast (t.sourceAttributes config.spans) root = .ok g ∧
            GraphDocument.ofGraph g = (GraphDocument.ofGraph g₀).project config.dropped) ∧
        ∀ language : Language, tables = language.tables →
          ∃ g₀, graphOf t₀.ast (t₀.sourceAttributes config.spans) root₀ = .ok g₀ := by
  refine ⟨fun e => toSyntaxTree_eq_error_iff, fun t t₀ h h₀ => ?_⟩
  obtain ⟨hnodes, hpath⟩ := nodes_of_toSyntaxTree hc h h₀
  have hsound := hc.sound_of_toSyntaxTree h
  have hsound₀ := hc.sound_of_toSyntaxTree h₀
  obtain ⟨root₀, hroot₀⟩ : ∃ root : Fin t₀.size, root.val = 0 := ⟨⟨0, hsound₀.nonempty⟩, rfl⟩
  refine ⟨hnodes, root₀.cast (size_of_restrict hnodes), root₀, hsound.root?_eq hroot₀,
    hsound₀.root?_eq hroot₀, fun g₀ hg₀ => ?_, ?_⟩
  · obtain ⟨g, hg, hprojects⟩ := exists_graphOf_image (SyntaxTree.image hnodes)
      (fun _ => Config.emits_eq_true_iff) config.structural_not_mem_dropped
      (sourceAttributes_restrict hsound₀ hsound hnodes hpath config.spans) hg₀
    exact ⟨g, hg, hprojects.document⟩
  · rintro language rfl
    obtain ⟨c', hadd⟩ : ∃ c', (∅ : Conversion).add t₀.ast (t₀.sourceAttributes config.spans) root₀ =
        .ok c' :=
      (hc.regular_of_toSyntaxTree h₀).exists_add hroot₀ fun i => Bool.false_ne_true
    exact ⟨c'.graph, map_eq_ok_iff.2 ⟨c', hadd, rfl⟩⟩

theorem project_of_toSyntaxTree_parameterRows :
    let config := { Config.standard with disabledRelations := [.type, .structural, .type] }
    parameterRows.PreOrdered ∧ ∃ t t₀,
      parameterRows.toSyntaxTree "x: T\n" Language.rust.tables config "a.rs" 0 = .ok t ∧
      parameterRows.toSyntaxTree "x: T\n" Language.rust.tables .standard "a.rs" 1 = .ok t₀ ∧
      ∃ root root₀ g g₀, graphOf t.ast (t.sourceAttributes true) root = .ok g ∧
        graphOf t₀.ast (t₀.sourceAttributes true) root₀ = .ok g₀ ∧
        GraphDocument.ofGraph g = (GraphDocument.ofGraph g₀).project [.type, .type] := by
  intro config
  have hsize : (parameterRows.toSyntaxTree "x: T\n" Language.rust.tables config "a.rs" 0).map
      (·.size) = .ok 4 := by decide +kernel
  have hsize₀ : (parameterRows.toSyntaxTree "x: T\n" Language.rust.tables .standard "a.rs" 1).map
      (·.size) = .ok 4 := by decide +kernel
  obtain ⟨t, ht, -⟩ := map_eq_ok_iff.1 hsize
  obtain ⟨t₀, ht₀, -⟩ := map_eq_ok_iff.1 hsize₀
  obtain ⟨-, htrees⟩ := project_of_toSyntaxTree preOrdered_parameterRows Language.rust.tables
    "x: T\n" "a.rs" config 0 1
  obtain ⟨-, root, root₀, -, -, hproject, hgraph⟩ := htrees t t₀ ht ht₀
  obtain ⟨g₀, hg₀⟩ := hgraph .rust rfl
  obtain ⟨g, hg, hdocument⟩ := hproject g₀ hg₀
  exact ⟨preOrdered_parameterRows, t, t₀, ht, ht₀, root, root₀, g, g₀, hg, hg₀, hdocument⟩

end Cst

end CodeGraph

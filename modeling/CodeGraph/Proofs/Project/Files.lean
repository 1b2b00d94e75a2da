import CodeGraph.Project.Build
import CodeGraph.Proofs.Conversion.Concatenation
import CodeGraph.Proofs.Conversion.Renaming
import CodeGraph.Proofs.Cst.Projection
import CodeGraph.Proofs.SyntaxTree.Vertices

/-!
# The tree of a file

What becomes of a file does not depend on the number of its tree (`parseFile_renumber`), which only
tells identities apart (`toNat_identity_div`). The tree is regular, and in its graph the first
vertex alone has no parent and alone says which file it is from (`Sound.ofFile`).
-/

namespace CodeGraph

open Attempt

/-- Whether a graph has one file: its first vertex stands for the whole of it. -/
structure PropertyGraph.OfFile (path : String) (g : PropertyGraph) : Prop where
  root : ∃ top rest, g.vertices.toList = top :: rest ∧
    top.properties.get? PropertyName.parentType = none ∧
    top.properties.get? "file" = some (.text path) ∧
    ∀ v ∈ rest, (v.properties.get? PropertyName.parentType).isSome ∧
      v.properties.get? "file" = none
  ids : g.vertices.toList.map (·.id) = List.range' 1 g.vertices.size
  ends : ∀ e ∈ g.edges.toList, (1 ≤ e.source ∧ e.source ≤ g.vertices.size) ∧
    1 ≤ e.target ∧ e.target ≤ g.vertices.size

namespace SyntaxTree

open Conversion

variable {t : SyntaxTree}

theorem Sound.parentKey?_eq_none_iff (h : t.Sound) {k : Nat} (hk : k < t.size) :
    t.parentKey? k = none ↔ k = 0 := by
  constructor
  · intro hnone
    by_contra hne
    obtain ⟨p, -, hp⟩ := h.parents k (Nat.pos_of_ne_zero hne) hk
    rw [hnone] at hp
    cases hp
  · rintro rfl
    exact h.top

theorem Sound.parent?_ast_eq_none_iff (h : t.Sound) (i : Fin t.size) :
    t.ast.parent? i = none ↔ i.val = 0 := by
  obtain ⟨x, hx⟩ := exists_node i
  have hkey : t.parentKey? i.val = x.parent := by rw [parentKey?, hx, Option.bind_some]
  rw [parent?_ast hx, ← hkey, ← h.parentKey?_eq_none_iff i.isLt]
  cases hp : t.parentKey? i.val with
  | none => simp
  | some p =>
    have hpos : 0 < i.val := by
      by_contra hzero
      rw [Nat.eq_zero_of_not_pos hzero, h.top] at hp
      cases hp
    obtain ⟨q, hlt, hq⟩ := h.parents i.val hpos i.isLt
    obtain rfl : q = p := Option.some.inj (hq.symm.trans hp)
    have hname := (nodeName?_eq_some_iff (t := t) (i := ⟨q, Nat.lt_trans hlt i.isLt⟩)).2 rfl
    simp [hname]

theorem fst_ne_file (spans : Bool) (span : Option Span) (field name : Option String)
    {e : String × String} (he : e ∈ (if spans then span.elim [] spanAttributes else []) ++
      field.toList.map ("field", ·) ++ name.toList.map ("name", ·)) : e.1 ≠ "file" := by
  rcases List.mem_append.1 he with he | he
  · have hfile : "file" ∉ sourceNames.take 7 := by decide
    exact fun heq => hfile (heq ▸ fst_mem_take_sourceNames he)
  · obtain ⟨_, -, rfl⟩ := List.mem_map.1 he
    simp

theorem Sound.get?_file (h : t.Sound) (spans : Bool) (i : Fin t.size) :
    (extraOf (t.sourceAttributes spans) i).get? "file" =
      if i.val = 0 then t.sourcePath else none := by
  obtain ⟨x, hx⟩ := exists_node i
  obtain ⟨name, hname⟩ := h.declaredName?_eq hx
  have hkey : t.parentKey? i.val = x.parent := by rw [parentKey?, hx, Option.bind_some]
  have hparent : x.parent.isNone = true ↔ i.val = 0 := by
    rw [Option.isNone_iff_eq_none, ← hkey, h.parentKey?_eq_none_iff i.isLt]
  have hfile := Record.get?_ofList_of_ne _ []
    (fun e => fst_ne_file spans x.data.span x.data.field name) (by simp)
    (if x.parent.isNone then t.sourcePath else none)
  rw [List.append_nil] at hfile
  rw [extraOf, sourceAttributes, sourceAttributes?, node?, hx, hname]
  change (Record.ofList (_ ++ if x.parent.isNone then _ else [])).get? "file" = _
  by_cases hzero : i.val = 0
  · rw [if_pos (hparent.2 hzero)] at hfile ⊢
    rw [if_pos hzero]
    exact hfile
  · rw [if_neg (mt hparent.1 hzero)] at hfile ⊢
    rw [if_neg hzero]
    exact hfile

/-! ## The graph of a tree -/

section graph

variable {c : Conversion} {root : Fin t.size} {spans : Bool} {handle : Nat} {v : Vertex}
  (h : t.Sound) (hroot : root.val = 0)
  (hadd : (∅ : Conversion).add t.ast (t.sourceAttributes spans) root = .ok c)

include h hroot hadd

theorem Sound.parentType_vertex (hv : c.graph.vertices.toList[handle]? = some v) :
    v.properties.get? PropertyName.parentType = none ↔ handle = 0 := by
  have hname : PropertyName.parentType ≠ PropertyName.reference := by decide
  rw [h.get?_vertex hroot hadd hname hv,
    get?_properties_parentType _ _ (h.not_mem_reserved spans _), Option.map_eq_none_iff,
    h.parent?_ast_eq_none_iff]

theorem Sound.file_vertex {path : String} (hpath : t.sourcePath = some path)
    (hv : c.graph.vertices.toList[handle]? = some v) :
    v.properties.get? "file" = if handle = 0 then some (.text path) else none := by
  rw [h.get?_vertex hroot hadd (by decide) hv, get?_properties _ _ _ (by decide), h.get?_file,
    hpath]
  split <;> rfl

end graph

theorem Sound.ofFile (h : t.Sound) {root : Fin t.size} (hroot : root.val = 0) {path : String}
    (hpath : t.sourcePath = some path) {spans : Bool} {g : PropertyGraph}
    (hg : graphOf t.ast (t.sourceAttributes spans) root = .ok g) : g.OfFile path := by
  obtain ⟨c, hadd, rfl⟩ := map_eq_ok_iff.1 hg
  have hc : Coherent c := coherent_empty.add hadd
  constructor
  case root =>
    obtain ⟨top, rest, hvertices⟩ : ∃ top rest, c.graph.vertices.toList = top :: rest := by
      refine List.exists_cons_of_length_pos ?_
      rw [Array.length_toList, h.size_of_add hroot hadd]
      exact Nat.lt_of_lt_of_le h.nonempty (Nat.le_add_left ..)
    have hfirst : c.graph.vertices.toList[0]? = some top := by rw [hvertices]; rfl
    refine ⟨top, rest, hvertices, (h.parentType_vertex hroot hadd hfirst).2 rfl,
      h.file_vertex hroot hadd hpath hfirst, fun v hv => ?_⟩
    obtain ⟨place, hplace⟩ := List.getElem?_of_mem hv
    have hlater : c.graph.vertices.toList[place + 1]? = some v := by
      rw [hvertices]
      exact hplace
    refine ⟨?_, h.file_vertex hroot hadd hpath hlater⟩
    rw [Option.isSome_iff_ne_none]
    exact fun hnone => Nat.succ_ne_zero place ((h.parentType_vertex hroot hadd hlater).1 hnone)
  case ids => exact hc.ids
  case ends =>
    intro e he
    rw [PropertyGraph.edges, Array.toList_map] at he
    obtain ⟨x, hx, rfl⟩ := List.mem_map.1 he
    have hends := hc.ends x hx
    omega

end SyntaxTree

namespace Outline

open SyntaxTree

theorem sourcePath_addRow {o : Outline} {t t' : SyntaxTree} {i : Nat} (h : o.addRow t i = .ok t') :
    t'.sourcePath = t.sourcePath := by
  cases hr : o.cst.rows[i]? with
  | none =>
    rw [addRow, hr] at h
    cases h
    rfl
  | some r =>
    obtain ⟨data, -, rfl⟩ := addRow_eq_ok hr h
    cases (o.scopes i).head? with
    | none => rfl
    | some parent =>
      rw [addBelow, addChild]
      split <;> rfl

theorem sourcePath_shape {o : Outline} {number : UInt32} {path : String} {t : SyntaxTree}
    (h : o.shape number path = .ok t) : t.sourcePath = some path := by
  have hrows : ∀ (rows : List Nat) (t t' : SyntaxTree), rows.foldlM o.addRow t = .ok t' →
      t'.sourcePath = t.sourcePath := by
    intro rows
    induction rows with
    | nil =>
      intro t t' h
      cases h
      rfl
    | cons i rest ih =>
      intro t t' h
      rw [List.foldlM_cons, bind_eq, bind_eq_ok_iff] at h
      obtain ⟨t₁, hi, h⟩ := h
      exact (ih t₁ t' h).trans (sourcePath_addRow hi)
  exact hrows o.kept _ t h

theorem withLinks_renumber (t : SyntaxTree) (number : UInt32) (links : List Link) :
    withLinks (t.renumber number) links = (withLinks t links).renumber number := by
  induction links generalizing t with
  | nil => rfl
  | cons l rest ih =>
    rw [withLinks_cons, withLinks_cons, ← ih]
    rfl

end Outline

namespace Cst

open Outline

variable {c : Cst} {source path : String} {tables : Language.Tables} {config : Config}
  {number : UInt32} {t : SyntaxTree}

theorem sourcePath_of_toSyntaxTree (h : c.toSyntaxTree source tables config path number = .ok t) :
    t.sourcePath = some path := by
  obtain ⟨shape, hshape, rfl⟩ := exists_shape h
  rw [sourcePath_withLinks, sourcePath_shape hshape]

theorem toSyntaxTree_renumber (c : Cst) (source path : String) (tables : Language.Tables)
    (config : Config) (number number' : UInt32) :
    c.toSyntaxTree source tables config path number' =
      (c.toSyntaxTree source tables config path number).map (·.renumber number') := by
  unfold toSyntaxTree
  cases if config.strict then c.firstError? else none with
  | some r => rfl
  | none =>
    simp only [bind_eq]
    rw [shape_renumber _ number number']
    cases (make source c tables config).shape number path with
    | error defect => rfl
    | ok shape => exact congrArg Except.ok (withLinks_renumber shape number' _)

end Cst

namespace FileTree

variable {t : FileTree} {config : Config} {path : String} {number : UInt32} {s : SyntaxTree}

/-- What becomes of a file does not depend on the number of its tree. -/
theorem parseFile_renumber (t : FileTree) (config : Config) (path : String)
    (number number' : UInt32) :
    t.parseFile config path number' =
      (t.parseFile config path number).map (·.renumber number') := by
  unfold parseFile
  cases Language.ofPath? path with
  | none => rfl
  | some language =>
    simp only [bind_eq]
    cases (t.read path).mapError (ProjectError.unreadable path) with
    | error e => rfl
    | ok f =>
      simp only [ok_bind]
      cases (Utf8.decode f.content).mapError fun defect =>
          ProjectError.source (.encoding defect) with
      | error e => rfl
      | ok text =>
        simp only [ok_bind]
        rw [Cst.toSyntaxTree_renumber _ _ _ _ _ number number']
        cases f.cst.toSyntaxTree text language.tables config path number <;> rfl

/-- Whether what a parser makes of the file under a path is in pre-order. A parser only sees texts
in a supported language. -/
def PreOrderedAt (t : FileTree) (path : String) : Prop :=
  ∀ language f text, Language.ofPath? path = some language → t.read path = .ok f →
    Utf8.decode f.content = .ok text → f.cst.PreOrdered

theorem regular_of_parseFile (hrows : t.PreOrderedAt path)
    (h : t.parseFile config path number = .ok s) :
    s.Regular ∧ s.number = number ∧ s.sourcePath = some path := by
  have hnumber : s.number = number := by
    have hself := parseFile_renumber t config path number number
    rw [h, ok_map, Except.ok.injEq] at hself
    exact congrArg SyntaxTree.number hself
  rw [parseFile] at h
  split at h
  · cases h
  · next language hlanguage =>
    rw [bind_eq, bind_eq_ok_iff] at h
    obtain ⟨f, hread, h⟩ := h
    rw [bind_eq, bind_eq_ok_iff] at h
    obtain ⟨text, htext, h⟩ := h
    have hc := hrows language f text hlanguage (mapError_eq_ok_iff.1 hread)
      (mapError_eq_ok_iff.1 htext)
    have hs := mapError_eq_ok_iff.1 h
    exact ⟨hc.regular_of_toSyntaxTree hs, hnumber, Cst.sourcePath_of_toSyntaxTree hs⟩

end FileTree

end CodeGraph

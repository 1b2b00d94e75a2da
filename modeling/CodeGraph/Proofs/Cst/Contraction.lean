import CodeGraph.Proofs.Cst.Descent
import CodeGraph.Proofs.Cst.Links
import CodeGraph.Proofs.Cst.WellFormed
import CodeGraph.Proofs.SyntaxTree.Conversion

/-!
# A syntax tree is what is left of its source

A concrete syntax tree is contracted to the rows that are kept: each becomes a node in the same
order, with what the row says of it, below the nearest kept row above it
(`contraction_of_toSyntaxTree`).
-/

namespace CodeGraph.Cst

open Attempt Outline SyntaxTree

/-- What a syntax tree has of a concrete one, of which it keeps `rows`. -/
structure Contraction (c : Cst) (source : String) (tables : Language.Tables)
    (includeAnonymous : Bool) (rows : List Nat) (t : SyntaxTree) : Prop where
  ascending : rows.Pairwise (· < ·)
  kept : ∀ i, i ∈ rows ↔ i < c.size ∧ (i = 0 ∨ ∃ r, c.rows[i]? = some r ∧ r.missing = false ∧
    (r.named = true ∨ includeAnonymous = true))
  size : t.size = rows.length
  data : ∀ k i : Nat, rows[k]? = some i → ∃ (r : Row) (x : Node),
    c.rows[i]? = some r ∧ t.nodes[k]? = some x ∧
    x.data.kind = r.kind ∧ r.Covers source x.data.text ∧
    x.data.span = some ⟨r.startRow + 1, r.startColumn + 1, r.endRow + 1, r.endColumn + 1,
      r.startByte, r.endByte⟩ ∧
    x.data.field = (if i = 0 then none else r.field) ∧
    (x.data.simple = true ↔ r.kind ∈ tables.simpleNames)
  root : t.rootKey = some 0
  top : ∀ k < t.size, t.parentKey? k = none ↔ k = 0
  parents : ∀ k p, t.parentKey? k = some p → ∃ i q, rows[k]? = some i ∧ rows[p]? = some q ∧
    (c.ancestors i).find? (· ∈ rows) = some q
  children : ∀ p < t.size, ∃ keys, t.children? p = .ok keys ∧ keys.Pairwise (· < ·) ∧
    ∀ k, k ∈ keys ↔ t.parentKey? k = some p
  preorder : ∀ root : Fin t.size, root.val = 0 → t.preorder? root = .ok (List.finRange t.size)

variable {c : Cst} {source path : String} {tables : Language.Tables} {config : Config}
  {number : UInt32} {t : SyntaxTree}

theorem find?_ancestors {o : Outline} (ho : o.Ordered) {k p : Nat} (hp : o.parentKey? k = some p) :
    ∃ i q, o.kept[k]? = some i ∧ o.kept[p]? = some q ∧
      (o.cst.ancestors i).find? (· ∈ o.kept) = some q := by
  obtain ⟨i, q, hi, hq, hmem, hnearest⟩ := ho.parentKey?_eq_some hp
  refine ⟨i, q, hi, hq, ?_⟩
  rw [List.find?_eq_some_iff_append]
  obtain ⟨nearer, outer, hsplit⟩ := List.append_of_mem hmem
  refine ⟨decide_eq_true (List.mem_of_getElem? hq), nearer, outer, hsplit, fun a ha => ?_⟩
  rw [Bool.not_eq_true', decide_eq_false_iff_not]
  intro hkept
  -- A nearer kept row would have a greater key.
  obtain ⟨l, hl⟩ := List.getElem?_of_mem hkept
  have hscope : l ∈ o.scopes i :=
    ho.mem_scopes_iff.2 ⟨a, by rw [hsplit]; exact List.mem_append_left _ ha, hl⟩
  have hlt : q < a := by
    have hpairwise := o.cst.pairwise_ancestors i
    rw [hsplit, List.pairwise_append] at hpairwise
    exact hpairwise.2.2 a ha q List.mem_cons_self
  have hle := hnearest l hscope
  have hkeys := (ho.row_lt_iff hq hl).1 hlt
  omega

theorem nodeData_eq_ok {c : Cst} {i : Nat} {r : Row} {data : NodeData} {text : String}
    (h : (make source c tables config).nodeData i r = .ok data) (hread : c.Reads source i text) :
    data = ⟨r.kind, text, tables.isSimpleName r.kind, some r.span,
      if i = 0 then none else r.field⟩ := by
  rw [nodeData, text_of_reads hread] at h
  exact (Except.ok.inj h).symm

theorem WellFormed.exists_node (hc : c.WellFormed source)
    (hdata : (make source c tables config).Carries t)
    (hsize : t.size = (c.kept config.includeAnonymous).length) {k i : Nat}
    (hi : (c.kept config.includeAnonymous)[k]? = some i) : ∃ (r : Row) (x : Node),
      c.rows[i]? = some r ∧ t.nodes[k]? = some x ∧
      x.data.kind = r.kind ∧ r.Covers source x.data.text ∧ x.data.span = some r.span ∧
      x.data.field = (if i = 0 then none else r.field) ∧
      (x.data.simple = true ↔ r.kind ∈ tables.simpleNames) := by
  have hk : k < t.size := by
    rw [hsize]
    exact (List.getElem?_eq_some_iff.1 hi).1
  have hx : t.nodes[k]? = some t.nodes[k] := Array.getElem?_eq_getElem hk
  obtain ⟨j, r, hj, hr, hnode⟩ := hdata k _ hx
  obtain rfl : i = j := Option.some.inj (hi.symm.trans hj)
  obtain ⟨text, hcovers⟩ := hc.covers i r hr
  refine ⟨r, _, hr, hx, ?_⟩
  rw [nodeData_eq_ok hnode ⟨r, hr, hcovers⟩]
  exact ⟨rfl, hcovers, rfl, rfl, List.contains_iff_mem⟩

/-- **The shape of a syntax tree.** A syntax tree has the rows of a well-formed source that are
kept, in order and with what they say, each below the nearest kept row above it; its structural
links are its shape, and its pre-order is the order of the rows. Its shape is also what a descent
over the concrete tree makes. -/
theorem contraction_of_toSyntaxTree (hc : c.WellFormed source)
    (h : c.toSyntaxTree source tables config path number = .ok t) :
    (∃ rows, c.Contraction source tables config.includeAnonymous rows t) ∧
    ∃ shape links, t = withLinks shape links ∧
      (make source c tables config).Descends config.includeAnonymous [(0, none)]
        ((SyntaxTree.empty number).setSourcePath path) shape := by
  have hsound := hc.preOrdered.sound_of_toSyntaxTree h
  have ho := ordered_make hc.preOrdered source tables config
  obtain ⟨shape, hshape, rfl⟩ := exists_shape h
  have hcopies := copies_of_shape ho hshape
  generalize hlinks : (make source c tables config).emitted config = links at hsound ⊢
  have hsize : (withLinks shape links).size = (c.kept config.includeAnonymous).length :=
    (size_withLinks shape links).trans hcopies.size
  have hdata := hcopies.data.withLinks links
  have hparents : ∀ k p, (withLinks shape links).parentKey? k = some p →
      (make source c tables config).parentKey? k = some p := by
    intro k p hp
    rw [parentKey?_withLinks, hcopies.parents] at hp
    split at hp
    · exact hp
    · cases hp
  refine ⟨⟨c.kept config.includeAnonymous, ?_⟩, shape, links, rfl, descends_of_shape ho rfl hshape⟩
  constructor
  case ascending => exact ho.ascending
  case kept =>
    intro i
    rw [mem_kept_iff]
    simp only [Row.keep, Bool.and_eq_true, Bool.not_eq_true', Bool.or_eq_true]
  case size => exact hsize
  case data =>
    intro k i hi
    exact hc.exists_node hdata hsize hi
  case root => exact hsound.root
  case top =>
    intro k hk
    constructor
    · intro hnone
      by_contra hne
      obtain ⟨p, -, hp⟩ := hsound.parents k (Nat.pos_of_ne_zero hne) hk
      rw [hnone] at hp
      cases hp
    · rintro rfl
      exact hsound.top
  case parents =>
    intro k p hp
    exact find?_ancestors ho (hparents k p hp)
  case children =>
    intro p hp
    exact ⟨_, hsound.children?_eq hp, pairwise_keysBelow _ p, fun k => mem_keysBelow_iff⟩
  case preorder =>
    intro root hroot
    exact hsound.preorder?_eq hroot

theorem contraction_recursiveRows :
    recursiveRows.WellFormed "def f(): f()" ∧ ∃ t,
      recursiveRows.toSyntaxTree "def f(): f()" Language.python.tables .standard "a.py" 0 = .ok t ∧
      ∃ rows, rows.length = 5 ∧
        recursiveRows.Contraction "def f(): f()" Language.python.tables false rows t := by
  have hsize : (recursiveRows.toSyntaxTree "def f(): f()" Language.python.tables .standard "a.py"
      0).map (·.size) = .ok 5 := by decide +kernel
  obtain ⟨t, ht, hfive⟩ := map_eq_ok_iff.1 hsize
  obtain ⟨⟨rows, hrows⟩, -⟩ := contraction_of_toSyntaxTree wellFormed_recursiveRows ht
  exact ⟨wellFormed_recursiveRows, t, ht, rows, hrows.size.symm.trans hfive, hrows⟩

end CodeGraph.Cst

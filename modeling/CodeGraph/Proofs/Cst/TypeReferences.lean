import CodeGraph.Proofs.Conversion.Contents
import CodeGraph.Proofs.Cst.Contraction
import CodeGraph.Proofs.Cst.Conversion
import CodeGraph.Proofs.Cst.Embedding
import CodeGraph.Proofs.Cst.Targets
import CodeGraph.Proofs.Cst.TypeNames
import CodeGraph.Proofs.Cst.Visibility

/-!
# Types, from the source to the references of vertices

A node whose row is typed has the kept ones among the type names that the type spells
(`TypeOf`, `related?_type`). No entry of a node is without targets (`Filled`), so the node's vertex
has a reference if and only if there are such names, and this joins their texts
(`types_of_toSyntaxTree`).
-/

namespace CodeGraph

/-- Which type names the type of a row spells. A row that is not typed spells none. -/
inductive Cst.TypeOf (c : Cst) (tables : Language.Tables) (i : Nat) : List Nat → Prop
  | typed (field : String) (x : Nat) (names : List Nat)
      (hfield : tables.typeField? (c.kind i) = some field) (hx : c.childByField? i field = some x)
      (hnames : c.Spells tables [x] names) : TypeOf c tables i names
  | untyped (h : ∀ field, tables.typeField? (c.kind i) = some field →
      c.childByField? i field = none) : TypeOf c tables i []

namespace SyntaxTree

/-- Whether each entry of each node has targets. -/
def Filled (t : SyntaxTree) : Prop :=
  ∀ (k : Nat) (x : Node), t.nodes[k]? = some x → ∀ e ∈ x.links, e.2 ≠ []

variable {t : SyntaxTree}

theorem ne_nil_of_mem_insertLink {relation : Relation} {target : Nat}
    {links : List (Relation × List Nat)} (hlinks : ∀ e ∈ links, e.2 ≠ []) :
    ∀ e ∈ insertLink relation target links, e.2 ≠ [] := by
  induction links with
  | nil =>
    intro e he
    rw [List.mem_singleton.1 he]
    exact List.cons_ne_nil _ _
  | cons entry rest ih =>
    obtain ⟨other, found⟩ := entry
    rw [List.forall_mem_cons] at hlinks
    rw [insertLink]
    split
    · rw [List.forall_mem_cons]
      refine ⟨?_, hlinks.2⟩
      split
      · exact hlinks.1
      · simp
    · rw [List.forall_mem_cons]
      exact ⟨hlinks.1, ih hlinks.2⟩

theorem Filled.link (h : t.Filled) (source : Nat) (relation : Relation) (target : Nat) :
    (t.link source relation target).Filled := by
  intro k y hy
  obtain ⟨x, hx, -, hlinks | hlinks⟩ := node_of_link hy
  · rw [hlinks]
    exact h k x hx
  · rw [hlinks]
    exact ne_nil_of_mem_insertLink (h k x hx)

/-- The name that the node of a key spells. -/
def nameAt? (t : SyntaxTree) (k : Nat) : Option String := t.nodes[k]?.bind (·.name?)

theorem filterMap_name?_ast (keys : List Nat) :
    (keys.filterMap t.nodeName?).filterMap t.ast.name? = keys.filterMap t.nameAt? := by
  rw [List.filterMap_filterMap]
  refine List.filterMap_congr fun k _ => ?_
  cases hk : t.nodeName? k with
  | none =>
    have hnone : t.nodes[k]? = none := by
      rw [nodeName?] at hk
      split at hk
      · cases hk
      · next hlt => exact Array.getElem?_eq_none (Nat.le_of_not_lt hlt)
    rw [nameAt?, hnone]
    rfl
  | some i =>
    obtain rfl := nodeName?_eq_some_iff.1 hk
    obtain ⟨x, hx⟩ := exists_node i
    rw [nameAt?, hx, Option.bind_some, name?_ast hx, Option.bind_some]

theorem Sound.references_ast (h : t.Sound) (hfilled : t.Filled) (k : Fin t.size) :
    t.ast.references k =
      if t.targetKeys k .type = [] then []
      else [",".intercalate ((t.targetKeys k .type).filterMap t.nameAt?)] := by
  obtain ⟨x, hx⟩ := exists_node k
  have hone := countP_relation_le_one (h.oneEntry k x hx) .type
  have hskip : ∀ e ∈ x.links, (e.1 == Relation.type) = false →
      (t.ast.joinedNames? ∘ fun e => (e.1, e.2.filterMap t.nodeName?)) e = none := fun e _ he => by
    rw [Function.comp_apply, Ast.joinedNames?, if_neg (by simpa using he)]
  rw [Ast.references, links_ast hx, List.filterMap_map, Lists.filterMap_of_countP_le_one hone hskip,
    targetKeys, hx, Option.elim_some, targets]
  cases hfind : x.links.find? (·.1 == .type) with
  | none => rfl
  | some e =>
    have htype : e.1 = .type := by simpa using List.find?_some hfind
    have hne := hfilled k x hx e (List.mem_of_find?_eq_some hfind)
    rw [Option.map_some, Option.getD_some, if_neg hne, Option.bind_some, Function.comp_apply,
      Ast.joinedNames?, if_pos htype, filterMap_name?_ast]
    rfl

/-- Only a tree whose types all spell names is taken up. -/
theorem Sound.isSome_nameAt? (h : t.Sound) {spans : Bool} {c c' : Conversion} {root : Fin t.size}
    (hroot : root.val = 0) (hadd : c.add t.ast (t.sourceAttributes spans) root = .ok c')
    {k j : Nat} (hj : j ∈ t.targetKeys k .type) : (t.nameAt? j).isSome := by
  cases hx : t.nodes[k]? with
  | none =>
    rw [targetKeys, hx] at hj
    cases hj
  | some x =>
    rw [targetKeys, hx] at hj
    have hlinked := linked_of_mem_targets hj
    have hk : k < t.size := (Array.getElem?_eq_some_iff.1 hx).1
    have hlt : j < t.size := h.inRange k x hx _ _ hlinked
    obtain ⟨found, hentry, hmem⟩ :=
      mem_links_ast_of_linked (i := ⟨k, hk⟩) (j := ⟨j, hlt⟩) hx hlinked
    have hconvertible :=
      Conversion.convertible_of_add (fun i _ => h.structuralCount_le_one i) hadd
    have hnode : (⟨k, hk⟩ : Fin t.size) ∈ t.ast.preorder root := by
      rw [h.preorder_eq hroot]
      exact List.mem_finRange _
    have hname := hconvertible.named _ hnode found hentry _ hmem
    obtain ⟨y, hy⟩ := exists_node (⟨j, hlt⟩ : Fin t.size)
    rwa [name?_ast hy, ← Option.bind_some y Node.name?, ← hy] at hname

end SyntaxTree

namespace Outline

open SyntaxTree

variable {o : Outline} {t : SyntaxTree} {i k : Nat}

theorem Copies.filled (h : o.Copies t o.kept.length) : t.Filled := by
  intro k x hx e he
  rw [h.shaped k x hx, shapeLinks] at he
  split at he
  · cases he
  · next hne =>
    rw [List.mem_singleton.1 he]
    exact hne

theorem filled_withLinks (h : t.Filled) (links : List Link) : (withLinks t links).Filled := by
  induction links generalizing t with
  | nil => exact h
  | cons l rest ih => exact ih (h.link l.source l.relation l.target)

/-- The keys of the type names that the type of a row spells. -/
def typeKeys (o : Outline) (i : Nat) : List Nat :=
  (o.typeRow? i).elim [] fun x => (o.typeNames x).filterMap o.key?

theorem map_target_typeLinks (hkey : o.key? i = some k) :
    (o.typeLinks i).map (·.target) = o.typeKeys i := by
  rw [typeLinks, typeKeys]
  cases o.typeRow? i with
  | none => rfl
  | some x =>
    rw [Option.elim_some, List.map_filterMap]
    refine List.filterMap_congr fun j _ => ?_
    rw [link?, hkey]
    cases o.key? j <;> rfl

theorem typeRow?_eq_some_iff {x : Nat} : o.typeRow? i = some x ↔
    ∃ field, o.tables.typeField? (o.cst.kind i) = some field ∧
      o.cst.childByField? i field = some x := by
  rw [typeRow?, Option.bind_eq_some_iff]

theorem Ordered.typeOf (ho : o.Ordered) (hi : i ∈ o.kept) :
    ∃ names, o.cst.TypeOf o.tables i names ∧ names.Pairwise (· < ·) ∧
      o.typeKeys i = names.filterMap o.key? := by
  rw [typeKeys]
  cases hx : o.typeRow? i with
  | none =>
    refine ⟨[], .untyped fun field hfield => ?_, .nil, rfl⟩
    rw [typeRow?, hfield] at hx
    exact hx
  | some x =>
    obtain ⟨field, hfield, hchild⟩ := typeRow?_eq_some_iff.1 hx
    have hlt := Cst.childByField?_lt_size (ho.inside i hi) hchild
    have hnames := spells_typeNames ho.rows hlt
    exact ⟨_, .typed field x _ hfield hchild hnames,
      hnames.pairwise ho.rows ⟨List.pairwise_singleton _ _, by simpa using hlt⟩, rfl⟩

theorem Ordered.pairwise_typeKeys (ho : o.Ordered) (hi : i ∈ o.kept) :
    (o.typeKeys i).Pairwise (· < ·) := by
  obtain ⟨names, -, hpairwise, heq⟩ := ho.typeOf hi
  rw [heq]
  exact hpairwise.filterMap _ fun r s hrs k hk l hl =>
    (ho.row_lt_iff ((ho.keys r k).1 hk) ((ho.keys s l).1 hl)).1 hrs

theorem Ordered.map_filterMap_key? (ho : o.Ordered) (names : List Nat) :
    (names.filterMap o.key?).map (o.kept[·]?) = (names.filter (· ∈ o.kept)).map some := by
  induction names with
  | nil => rfl
  | cons j rest ih =>
    cases hkey : o.key? j with
    | none =>
      have hdropped : j ∉ o.kept := by
        intro hmem
        obtain ⟨k, hk⟩ := List.getElem?_of_mem hmem
        rw [(ho.keys j k).2 hk] at hkey
        cases hkey
      rw [List.filterMap_cons_none hkey, List.filter_cons_of_neg (by simpa using hdropped), ih]
    | some k =>
      have hk := (ho.keys j k).1 hkey
      have hmem : j ∈ o.kept := List.mem_of_getElem? hk
      rw [List.filterMap_cons_some hkey, List.filter_cons_of_pos (by simpa using hmem),
        List.map_cons, List.map_cons, ih, hk]

end Outline

namespace Cst

open Attempt Conversion Outline SyntaxTree

theorem TypeOf.unique {c : Cst} {tables : Language.Tables} {i : Nat} {names others : List Nat}
    (h : c.TypeOf tables i names) (hother : c.TypeOf tables i others) : names = others := by
  cases h with
  | typed field x _ hfield hx hnames =>
    cases hother with
    | typed _ y _ hsame hy hspells =>
      rw [hfield, Option.some.injEq] at hsame
      subst hsame
      rw [hx, Option.some.injEq] at hy
      subst hy
      exact hnames.unique hspells
    | untyped hnone =>
      rw [hnone field hfield] at hx
      cases hx
  | untyped hnone =>
    cases hother with
    | typed field x _ hfield hx =>
      rw [hnone field hfield] at hx
      cases hx
    | untyped _ => rfl

section made

variable {c : Cst} {source path : String} {tables : Language.Tables} {config : Config}
  {number : UInt32} {t : SyntaxTree} {i k : Nat}

theorem PreOrdered.related?_type (hc : c.PreOrdered)
    (h : c.toSyntaxTree source tables config path number = .ok t)
    (hi : (c.kept config.includeAnonymous)[k]? = some i) (hemits : config.emits .type = true) :
    t.related? k .type = .ok ((make source c tables config).typeKeys i) := by
  have ho := ordered_make hc source tables config
  have hkey := (ho.keys i k).2 hi
  have hnodup : ([] ++ (make source c tables config).typeKeys i).Nodup :=
    (ho.pairwise_typeKeys (List.mem_of_getElem? hi)).imp Nat.ne_of_lt
  rw [hc.related?_of_toSyntaxTree h hi (by decide) (by decide) hemits, filter_rowLinks hkey,
    if_pos rfl, if_neg (by decide), if_neg (by decide), List.append_nil, List.append_nil,
    map_target_typeLinks hkey, foldl_addTarget_of_nodup hnodup, List.nil_append]

theorem PreOrdered.filled_of_toSyntaxTree (hc : c.PreOrdered)
    (h : c.toSyntaxTree source tables config path number = .ok t) : t.Filled := by
  obtain ⟨shape, hshape, rfl⟩ := exists_shape h
  have hcopies := copies_of_shape (ordered_make hc source tables config) hshape
  exact filled_withLinks hcopies.filled _

end made

variable {c : Cst} {source path : String} {tables : Language.Tables} {config : Config}
  {number : UInt32} {t : SyntaxTree} {rows keys : List Nat} {k : Nat}

section converted

variable (hc : c.WellFormed source) (h : c.toSyntaxTree source tables config path number = .ok t)
  (hrows : c.kept config.includeAnonymous = rows)

include hc h hrows

theorem WellFormed.reads_of_nameAt? {j : Nat} {name : String} (hname : t.nameAt? j = some name) :
    ∃ i, rows[j]? = some i ∧ c.Reads source i name := by
  subst hrows
  obtain ⟨y, hy, hspelled⟩ := Option.bind_eq_some_iff.1 hname
  have hshown := hc.preOrdered.shown_of_toSyntaxTree h
  have hlt : j < (c.kept config.includeAnonymous).length :=
    hshown.size ▸ (Array.getElem?_eq_some_iff.1 hy).1
  have hrow := List.getElem?_eq_getElem hlt
  obtain ⟨r, z, hr, hz, -, hcovers, -⟩ := hc.exists_node hshown.data hshown.size hrow
  obtain rfl : y = z := Option.some.inj (hy.symm.trans hz)
  obtain rfl : y.data.text = name := Option.some.inj (Option.ite_none_right_eq_some.1 hspelled).2
  exact ⟨_, hrow, r, hr, hcovers⟩

theorem WellFormed.reference_of_add {before after : Conversion} {root : Fin t.size}
    (hroot : root.val = 0)
    (hadd : before.add t.ast (t.sourceAttributes config.spans) root = .ok after)
    (hkeys : t.related? k .type = .ok keys) :
    ∃ v texts, after.graph.vertices[before.graph.vertices.size + k]? = some v ∧
      List.Forall₂ (fun j text => ∃ i, rows[j]? = some i ∧ c.Reads source i text) keys texts ∧
      v.properties.get? "reference" =
        if keys = [] then none else some (.text (",".intercalate texts)) := by
  have hsound := hc.preOrdered.sound_of_toSyntaxTree h
  have hk := lt_size_of_related? hkeys
  rw [hsound.related?_eq hk, Except.ok.injEq] at hkeys
  subst hkeys
  have hplace : (t.ast.preorder root)[k]? = some ⟨k, hk⟩ := by
    rw [hsound.preorder_eq hroot, List.getElem?_eq_getElem (by simpa using hk)]
    simp
  obtain ⟨v, hv, hreference⟩ := Conversion.reference_of_add
    (fun i _ => hsound.structuralCount_le_one i) hadd hplace
  refine ⟨v, (t.targetKeys k .type).filterMap t.nameAt?, hv,
    Lists.forall₂_filterMap fun j hj => ?_, ?_⟩
  · obtain ⟨name, hname⟩ := Option.isSome_iff_exists.1 (hsound.isSome_nameAt? hroot hadd hj)
    exact ⟨name, hname, hc.reads_of_nameAt? h hrows hname⟩
  · rw [hreference, hsound.references_ast (hc.preOrdered.filled_of_toSyntaxTree h)]
    split <;> rfl

end converted

/-- **Types, from the source to the graph.** In a syntax tree of a well-formed source, with a node
for each kept row, a node has as its types the kept ones of the names that its row's type spells, in
order, and none twice. Wherever the tree is taken up, the vertex of a node has a reference if and
only if the node has types, which joins what their rows read, and no edge stands for a type. With
the tables of a language the tree converts. -/
theorem types_of_toSyntaxTree (hc : c.WellFormed source)
    (h : c.toSyntaxTree source tables config path number = .ok t)
    (hemits : config.emits .type = true) (hrows : c.kept config.includeAnonymous = rows) :
    t.size = rows.length ∧
    (∀ k i, rows[k]? = some i → (∃ names, c.TypeOf tables i names) ∧
      ∀ names, c.TypeOf tables i names → names.Pairwise (· < ·) ∧
        ∃ keys, t.related? k .type = .ok keys ∧
          keys.map (rows[·]?) = (names.filter (· ∈ rows)).map some) ∧
    (∀ root : Fin t.size, root.val = 0 → ∀ calls : List Call, let before := (runCalls ∅ calls).1
      let after := before.process t.ast (t.sourceAttributes config.spans) root
      after.2 = .ok () →
      (∀ e ∈ after.1.graph.edges.toList, e.label ≠ "TYPE") ∧
      ∀ k keys, t.related? k .type = .ok keys → ∃ v texts,
        after.1.graph.vertices[before.graph.vertices.size + k]? = some v ∧
        List.Forall₂ (fun j text => ∃ i, rows[j]? = some i ∧ c.Reads source i text) keys texts ∧
        v.properties.get? "reference" =
          if keys = [] then none else some (.text (",".intercalate texts))) ∧
    ∀ language : Language, tables = language.tables → ∃ root : Fin t.size, root.val = 0 ∧
      ((∅ : Conversion).process t.ast (t.sourceAttributes config.spans) root).2 = .ok () := by
  refine ⟨hrows ▸ hc.preOrdered.size_of_toSyntaxTree h, fun k i hi => ?_, ?_, ?_⟩
  · subst hrows
    have ho := ordered_make hc.preOrdered source tables config
    obtain ⟨names, hnames, hpairwise, heq⟩ := ho.typeOf (List.mem_of_getElem? hi)
    refine ⟨⟨names, hnames⟩, fun others hothers => ?_⟩
    obtain rfl := hnames.unique hothers
    refine ⟨hpairwise, _, hc.preOrdered.related?_type h hi hemits, ?_⟩
    rw [heq]
    exact ho.map_filterMap_key? names
  · intro root hroot calls before after hok
    have hafter := add_of_process hok
    have hcoherent : Coherent after.1 := (coherent_empty.runCalls calls).add hafter
    refine ⟨fun e he htype => ?_, fun k keys => hc.reference_of_add h hrows hroot hafter⟩
    have hlabel := (hcoherent.edge he).2.2.2
    rw [htype] at hlabel
    exact absurd hlabel (by decide)
  · rintro language rfl
    exact hc.preOrdered.exists_process_of_toSyntaxTree h

/-- The rows of a parameter whose type has a qualified type as its argument. -/
def genericRows : Cst := ofRows
  #[⟨none, "source_file", true, false, false, none, 0, 10, 0, 0, 0, 10⟩,
    ⟨some 0, "parameter", true, false, false, none, 0, 10, 0, 0, 0, 10⟩,
    ⟨some 1, "identifier", true, false, false, some "pattern", 0, 1, 0, 0, 0, 1⟩,
    ⟨some 1, ":", false, false, false, none, 1, 2, 0, 1, 0, 2⟩,
    ⟨some 1, "generic_type", true, false, false, some "type", 3, 10, 0, 3, 0, 10⟩,
    ⟨some 4, "type_identifier", true, false, false, some "type", 3, 4, 0, 3, 0, 4⟩,
    ⟨some 4, "type_arguments", true, false, false, some "type_arguments", 4, 10, 0, 4, 0, 10⟩,
    ⟨some 6, "<", false, false, false, none, 4, 5, 0, 4, 0, 5⟩,
    ⟨some 6, "scoped_type_identifier", true, false, false, none, 5, 9, 0, 5, 0, 9⟩,
    ⟨some 8, "identifier", true, false, false, some "path", 5, 6, 0, 5, 0, 6⟩,
    ⟨some 8, "::", false, false, false, none, 6, 8, 0, 6, 0, 8⟩,
    ⟨some 8, "type_identifier", true, false, false, some "name", 8, 9, 0, 8, 0, 9⟩,
    ⟨some 6, ">", false, false, false, none, 9, 10, 0, 9, 0, 10⟩]

theorem wellFormed_genericRows : genericRows.WellFormed "x: P<a::B>" where
  preOrdered := by decide +kernel
  covers
    | 0, _, rfl => ⟨"x: P<a::B>", "", "", by decide, by decide, by decide⟩
    | 1, _, rfl => ⟨"x: P<a::B>", "", "", by decide, by decide, by decide⟩
    | 2, _, rfl => ⟨"x", "", ": P<a::B>", by decide, by decide, by decide⟩
    | 3, _, rfl => ⟨":", "x", " P<a::B>", by decide, by decide, by decide⟩
    | 4, _, rfl => ⟨"P<a::B>", "x: ", "", by decide, by decide, by decide⟩
    | 5, _, rfl => ⟨"P", "x: ", "<a::B>", by decide, by decide, by decide⟩
    | 6, _, rfl => ⟨"<a::B>", "x: P", "", by decide, by decide, by decide⟩
    | 7, _, rfl => ⟨"<", "x: P", "a::B>", by decide, by decide, by decide⟩
    | 8, _, rfl => ⟨"a::B", "x: P<", ">", by decide, by decide, by decide⟩
    | 9, _, rfl => ⟨"a", "x: P<", "::B>", by decide, by decide, by decide⟩
    | 10, _, rfl => ⟨"::", "x: P<a", "B>", by decide, by decide, by decide⟩
    | 11, _, rfl => ⟨"B", "x: P<a::", ">", by decide, by decide, by decide⟩
    | 12, _, rfl => ⟨">", "x: P<a::B", "", by decide, by decide, by decide⟩

/-- The path of a qualified type is no part of what is spelled. -/
theorem typeOf_genericRows : genericRows.TypeOf Language.rust.tables 1 [5, 11] := by
  have hgeneric : genericRows.namedChildren 4 = [5, 6] := by decide +kernel
  have harguments : genericRows.namedChildren 6 = [8] := by decide +kernel
  have hqualified : (genericRows.namedChildren 8).getLast? = some 11 := by decide +kernel
  refine .typed "type" 4 _ rfl (by decide +kernel) ?_
  refine .parts 4 [] [5, 11] [] (by decide) (by decide) ?_ .nil
  rw [hgeneric]
  refine .name 5 [6] [11] (by decide) ?_
  refine .parts 6 [] [11] [] (by decide) (by decide) ?_ .nil
  rw [harguments]
  exact .segment 8 11 [] [] (by decide) (by decide) hqualified (by decide) .nil

theorem types_of_toSyntaxTree_genericRows :
    genericRows.WellFormed "x: P<a::B>" ∧ Config.standard.emits .type = true ∧ ∃ t,
      genericRows.toSyntaxTree "x: P<a::B>" Language.rust.tables .standard "a.rs" 0 = .ok t ∧
      genericRows.kept false = [0, 1, 2, 4, 5, 6, 8, 9, 11] ∧
      t.related? 1 .type = .ok [4, 8] ∧ ∃ root v,
        ((∅ : Conversion).process t.ast (t.sourceAttributes true) root).1.graph.vertices[1]? =
          some v ∧
        v.properties.get? "reference" = some (.text "P,B") := by
  obtain ⟨t, ht⟩ := wellFormed_genericRows.exists_toSyntaxTree Language.rust.tables .standard
    "a.rs" 0 fun h => absurd h (by decide)
  have hkept : genericRows.kept false = [0, 1, 2, 4, 5, 6, 8, 9, 11] := by decide +kernel
  obtain ⟨-, htypes, hgraph, hexists⟩ :=
    types_of_toSyntaxTree wellFormed_genericRows ht rfl hkept
  obtain ⟨root, hroot, hok⟩ := hexists .rust rfl
  obtain ⟨-, keys, hrelated, hkeys⟩ := (htypes 1 1 rfl).2 _ typeOf_genericRows
  obtain rfl : keys = [4, 8] := by
    obtain ⟨k, rest, rfl, hk, hrest⟩ := List.map_eq_cons_iff.1 hkeys
    obtain ⟨l, rfl, hl⟩ := List.map_eq_singleton_iff.1 hrest
    have hplaces : ∀ k < 9, ([0, 1, 2, 4, 5, 6, 8, 9, 11][k]? = some 5 → k = 4) ∧
        ([0, 1, 2, 4, 5, 6, 8, 9, 11][k]? = some 11 → k = 8) := by decide
    rw [(hplaces k (List.getElem?_eq_some_iff.1 hk).1).1 hk,
      (hplaces l (List.getElem?_eq_some_iff.1 hl).1).2 hl]
  obtain ⟨v, texts, hv, htexts, hreference⟩ := (hgraph root hroot [] hok).2 1 _ hrelated
  obtain ⟨first, rest, ⟨i, hi, hfirst⟩, hrest, rfl⟩ := List.forall₂_cons_left_iff.1 htexts
  obtain ⟨last, rest, ⟨j, hj, hlast⟩, hnil, rfl⟩ := List.forall₂_cons_left_iff.1 hrest
  obtain rfl : 5 = i := Option.some.inj hi
  obtain rfl : 11 = j := Option.some.inj hj
  obtain rfl := List.forall₂_nil_left_iff.1 hnil
  obtain rfl : first = "P" :=
    hfirst.unique ⟨_, rfl, "x: ", "<a::B>", by decide, by decide, by decide⟩
  obtain rfl : last = "B" :=
    hlast.unique ⟨_, rfl, "x: P<a::", ">", by decide, by decide, by decide⟩
  exact ⟨wellFormed_genericRows, rfl, t, ht, hkept, hrelated, root, v, hv, hreference⟩

end Cst

end CodeGraph

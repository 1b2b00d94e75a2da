import CodeGraph.Proofs.Conversion.Contents
import CodeGraph.Proofs.Conversion.Forest
import CodeGraph.Proofs.Cst.Calls
import CodeGraph.Proofs.Cst.Conversion
import CodeGraph.Proofs.Cst.Roles

/-!
# Declarations are called what they are looked up by

The name of a declaration is found twice: in the rows, for the links that lead to it, and among the
nodes, for the attributes of its own. Where nothing is below the rows that may be left out, both are
the same (`declaredName?_of_toSyntaxTree`). Only what uses that name is linked to the declaration
(`reads_of_relates`, `callsBy_of_relates`), and so in the graph a reference reads the name that its
target has (`declaredNames_of_toSyntaxTree`).
-/

namespace CodeGraph

namespace SyntaxTree

open Attempt Conversion

variable {t : SyntaxTree} {k : Nat}

theorem get?_name_of_declaredName? (spans : Bool) {i : Fin t.size} {name : Option String}
    (hname : t.declaredName? i = .ok name) :
    (extraOf (t.sourceAttributes spans) i).get? "name" = name := by
  obtain ⟨x, hx⟩ := exists_node i
  have hother : "name" ∉ sourceNames.take 7 := by decide
  rw [extraOf, sourceAttributes, sourceAttributes?, node?, hx, hname]
  refine Record.get?_ofList_of_ne _ _ (fun e he heq => ?_) (fun e he => ?_) name
  · exact hother (heq ▸ fst_mem_take_sourceNames he)
  · split at he
    · obtain ⟨_, -, rfl⟩ := List.mem_map.1 he
      simp
    · cases he

theorem Sound.exists_vertex_of_add (h : t.Sound) {spans : Bool} {c c' : Conversion}
    {root : Fin t.size} (hroot : root.val = 0)
    (hadd : c.add t.ast (t.sourceAttributes spans) root = .ok c') {x : Node}
    (hx : t.nodes[k]? = some x) :
    ∃ v, c'.graph.vertices[c.graph.vertices.size + k]? = some v ∧ v.id = c.nextId + k ∧
      v.properties.get? "text" = some (.text x.data.text) ∧
      ∀ name, t.declaredName? k = .ok name → v.properties.get? "name" = name.map .text := by
  have hk : k < t.size := (Array.getElem?_eq_some_iff.1 hx).1
  have hplace : (t.ast.preorder root)[k]? = some ⟨k, hk⟩ := by
    rw [h.preorder_eq hroot, List.getElem?_eq_getElem (by simpa using hk)]
    simp
  obtain ⟨extra, hsource, hextra, hv⟩ :=
    Conversion.exists_vertex_of_add (fun i _ => h.structuralCount_le_one i) hadd hplace
  refine ⟨_, hv, Vertex.id_withReferences _ _, ?_, fun name hname => ?_⟩
  · rw [Vertex.get?_withReferences, if_neg (by decide),
      get?_properties_reserved t.ast _ hextra (by decide), get?_properties_empty,
      if_pos (show PropertyName.text = "text" from rfl), text_ast hx]
  · have hfound : extra.get? "name" = name := by
      have hattributes := get?_name_of_declaredName? spans (i := ⟨k, hk⟩) hname
      rwa [extraOf, hsource] at hattributes
    rw [Vertex.get?_withReferences, if_neg (by decide),
      get?_properties t.ast _ extra (by decide), hfound]

theorem Sound.exists_relates_of_target (h : t.Sound) {spans : Bool} {c c' : Conversion}
    (hc : Coherent c) {root : Fin t.size} (hroot : root.val = 0)
    (hadd : c.add t.ast (t.sourceAttributes spans) root = .ok c') (relation : Relation) {e : Edge}
    (he : e ∈ c'.graph.edgesLabeled relation.label) (htarget : e.target = c.nextId + k) :
    ∃ l, t.Relates relation l k ∧ e.source = c.nextId + l := by
  obtain ⟨hmem, hlabel⟩ := List.mem_filter.1 he
  rcases h.exists_relates_of_add hroot hadd (Array.mem_toList_iff.1 hmem) with
    hold | ⟨r, l, j, hrelates, hr, hsource, hj⟩
  · have hlt := hc.target_lt hold
    omega
  · obtain rfl : r = relation := Relation.label_inj.1 (hr.symm.trans (beq_iff_eq.1 hlabel))
    obtain rfl : j = k := by omega
    exact ⟨l, hrelates, hsource⟩

end SyntaxTree

namespace Outline

variable {o : Outline} {i : Nat} {d e : Declaration} {l : Link}

theorem eq_of_row_eq (hd : d ∈ o.declarations) (he : e ∈ o.declarations) (hrow : d.row = e.row) :
    d = e := by
  obtain ⟨r, -, hdeclares⟩ := List.mem_filterMap.1 hd
  obtain ⟨s, -, hother⟩ := List.mem_filterMap.1 he
  obtain rfl := (declaration?_eq_some_iff.1 hdeclares).2.2.1
  obtain rfl := (declaration?_eq_some_iff.1 hother).2.2.1
  rw [hrow, hother] at hdeclares
  exact (Option.some.inj hdeclares).symm

theorem Ordered.eq_of_visible? (ho : o.Ordered) {p : Declaration → Bool} {relation : Relation}
    (hvisible : o.visible? (o.declarations.filter p) i = some e)
    (hlink : o.link? i relation e.row = some l) (hd : d ∈ o.declarations)
    (htarget : o.kept[l.target]? = some d.row) : e = d ∧ p e = true := by
  obtain ⟨hmem, -⟩ := visible?_eq_some ho (ho.pairwise_declarations.filter p) hvisible
  obtain ⟨he, hp⟩ := List.mem_filter.1 hmem
  obtain ⟨-, -, hkey⟩ := link?_eq_some_iff.1 hlink
  have hrow := (ho.keys _ _).1 hkey
  rw [htarget, Option.some.injEq] at hrow
  exact ⟨eq_of_row_eq he hd hrow.symm, hp⟩

end Outline

namespace Cst

open Attempt Conversion Outline SyntaxTree

variable {c : Cst} {source path : String} {tables : Language.Tables} {config : Config}
  {number : UInt32} {t : SyntaxTree} {rows : List Nat} {k l : Nat}

/-- A declaration's node declares the name that the child in the role `name` of its row reads, if
that is kept and a simple name. -/
theorem WellFormed.declaredName?_of_toSyntaxTree (hc : c.WellFormed source) (hbare : c.BareTokens)
    (h : c.toSyntaxTree source tables config path number = .ok t) {d n : Nat} {name : String}
    (hd : (c.kept config.includeAnonymous)[k]? = some d)
    (hn : n ∈ c.kept config.includeAnonymous) (hchild : c.childByField? d "name" = some n)
    (hsimple : c.kind n ∈ tables.simpleNames) (hreads : c.Reads source n name) :
    t.declaredName? k = .ok (some name) := by
  obtain ⟨j, hj⟩ := List.getElem?_of_mem hn
  have hshown := hc.preOrdered.shown_of_toSyntaxTree h
  obtain ⟨r, x, hr, hx, -, hcovers, -, -, hname⟩ := hc.exists_node hshown.data hshown.size hj
  obtain rfl : x.data.text = name := Reads.unique ⟨r, hr, hcovers⟩ hreads
  rw [Cst.kind, hr] at hsimple
  rw [declaredName?, hc.childByField?_of_toSyntaxTree hbare h hd hj hchild, bind_eq, ok_bind,
    Option.bind_some, hx, Option.bind_some, Node.name?, if_pos (hname.2 hsimple)]

theorem WellFormed.exists_vertex_of_add (hc : c.WellFormed source)
    (h : c.toSyntaxTree source tables config path number = .ok t) {k i : Nat}
    (hi : (c.kept config.includeAnonymous)[k]? = some i) {before after : Conversion}
    {root : Fin t.size} (hroot : root.val = 0)
    (hadd : before.add t.ast (t.sourceAttributes config.spans) root = .ok after) :
    ∃ v text, after.graph.vertices[before.graph.vertices.size + k]? = some v ∧
      v.id = before.nextId + k ∧ c.Reads source i text ∧
      v.properties.get? "text" = some (.text text) ∧
      ∀ name, t.declaredName? k = .ok name → v.properties.get? "name" = name.map .text := by
  have hshown := hc.preOrdered.shown_of_toSyntaxTree h
  obtain ⟨r, x, hr, hx, -, hcovers, -⟩ := hc.exists_node hshown.data hshown.size hi
  obtain ⟨v, hv, hid, htext, hname⟩ :=
    (hc.preOrdered.sound_of_toSyntaxTree h).exists_vertex_of_add hroot hadd hx
  exact ⟨v, _, hv, hid, ⟨r, hr, hcovers⟩, htext, hname⟩

theorem PreOrdered.exists_row_of_relates (hc : c.PreOrdered)
    (h : c.toSyntaxTree source tables config path number = .ok t) {relation : Relation}
    (hrel : relation ≠ .structural) (hrelates : t.Relates relation k l) :
    config.emits relation = true ∧ ∃ i < c.size, (c.kept config.includeAnonymous)[k]? = some i := by
  have hlt : k < (c.kept config.includeAnonymous).length :=
    hc.size_of_toSyntaxTree h ▸ lt_size_of_relates hrelates
  refine ⟨?_, _, (ordered_make hc source tables config).inside _ (List.getElem_mem hlt),
    List.getElem?_eq_getElem hlt⟩
  by_contra hnone
  have hempty :
      ((make source c tables config).emitted config).filter (·.leaves k relation) = [] := by
    rw [List.filter_eq_nil_iff]
    intro link hlink hleaves
    have hemits := (List.mem_filter.1 hlink).2
    rw [(Link.leaves_iff.1 hleaves).2] at hemits
    exact hnone hemits
  have hrelated := hc.related?_eq_emitted h (lt_size_of_relates hrelates) hrel
  rw [hempty] at hrelated
  exact absurd ((relates_iff hrelated).1 hrelates) List.not_mem_nil

section links

variable (hc : c.WellFormed source) (h : c.toSyntaxTree source tables config path number = .ok t)
  (hrows : c.kept config.includeAnonymous = rows) {d : Declaration}
  (hd : d ∈ (make source c tables config).declarations) (hk : rows[k]? = some d.row)

include hc h hrows hd hk

theorem WellFormed.reads_of_relates (hrelates : t.Relates .resolvesTo l k) :
    ∃ i, rows[l]? = some i ∧ c.Reads source i d.name := by
  subst hrows
  have ho := ordered_make hc.preOrdered source tables config
  obtain ⟨hemits, i, hsize, hi⟩ := hc.preOrdered.exists_row_of_relates h (by decide) hrelates
  have hmem := (relates_iff (hc.preOrdered.related?_resolvesTo h hi hemits)).1 hrelates
  obtain ⟨link, hlink, rfl⟩ := List.mem_map.1 hmem
  obtain ⟨-, -, name, e, htext, hvisible, hto⟩ :=
    resolvesToLink?_eq_some_iff.1 (Option.mem_toList.1 hlink)
  obtain ⟨rfl, hname⟩ := ho.eq_of_visible? hvisible hto hd hk
  obtain rfl : e.name = name := beq_iff_eq.1 hname
  exact ⟨i, hi, (text?_eq_some_iff hc hsize).1 htext⟩

theorem WellFormed.callsBy_of_relates (hrelates : t.Relates .calls l k) :
    ∃ i, rows[l]? = some i ∧ c.CallsBy source tables i d.name := by
  subst hrows
  have ho := ordered_make hc.preOrdered source tables config
  have ht := readsFrom_make hc tables config
  obtain ⟨hemits, i, hsize, hi⟩ := hc.preOrdered.exists_row_of_relates h (by decide) hrelates
  have hmem := (relates_iff (hc.preOrdered.related?_calls h hi hemits)).1 hrelates
  obtain ⟨link, hlink, rfl⟩ := List.mem_map.1 hmem
  obtain ⟨name, e, hcalls, hvisible, hto⟩ :=
    (callsLink?_eq_some_iff_callsBy ht hsize).1 (Option.mem_toList.1 hlink)
  obtain ⟨rfl, hname⟩ := ho.eq_of_visible? hvisible hto hd hk
  obtain rfl : e.name = name := beq_iff_eq.1 (Bool.and_eq_true_iff.1 hname).1
  exact ⟨i, hi, hcalls⟩

end links

/-- **The name of a declaration.** Let nothing be below the tokens and the made up rows of a
well-formed source. A declaration is looked up by what its row in the role `name` reads. If that row
is kept and a simple name, then wherever the syntax tree of the source is taken up, the vertex of
the declaration has this as its name. The source of each edge that resolves to the vertex has that
name as its text, and the source of each call of it is a call site whose callee spells the name.
With the tables of a language the tree converts. -/
theorem declaredNames_of_toSyntaxTree (hc : c.WellFormed source) (hbare : c.BareTokens)
    (h : c.toSyntaxTree source tables config path number = .ok t)
    (hrows : c.kept config.includeAnonymous = rows) :
    (∀ root : Fin t.size, root.val = 0 → ∀ calls : List Call, let before := (runCalls ∅ calls).1
      let after := before.process t.ast (t.sourceAttributes config.spans) root
      after.2 = .ok () →
      ∀ d ∈ (make source c tables config).declarations, ∀ n,
        c.childByField? d.row "name" = some n → n ∈ rows → c.kind n ∈ tables.simpleNames →
        c.Reads source n d.name ∧ ∃ k v, rows[k]? = some d.row ∧
          after.1.graph.vertices[before.graph.vertices.size + k]? = some v ∧
          v.properties.get? "name" = some (.text d.name) ∧
          (∀ e ∈ after.1.graph.edgesLabeled "RESOLVES_TO", e.target = v.id →
            ∃ u, after.1.graph.vertexById? e.source = some u ∧
              u.properties.get? "text" = v.properties.get? "name") ∧
          ∀ e ∈ after.1.graph.edgesLabeled "CALLS", e.target = v.id →
            ∃ l i, e.source = before.nextId + l ∧ rows[l]? = some i ∧
              c.CallsBy source tables i d.name) ∧
    ∀ language : Language, tables = language.tables → ∃ root : Fin t.size, root.val = 0 ∧
      ((∅ : Conversion).process t.ast (t.sourceAttributes config.spans) root).2 = .ok () := by
  constructor
  · intro root hroot calls before after hok d hd n hchild hn hsimple
    subst hrows
    have hafter := add_of_process hok
    have hcoherent : Coherent before := coherent_empty.runCalls calls
    have hsound := hc.preOrdered.sound_of_toSyntaxTree h
    have ho := ordered_make hc.preOrdered source tables config
    -- The row that gives a declaration its name is its first child in that role.
    obtain ⟨⟨m, ⟨hmem, -, hname⟩, hreads⟩, -⟩ :=
      (mem_declarations_iff ho (readsFrom_make hc tables config)).1 hd
    obtain rfl : m = n := Option.some.inj (hname.symm.trans hchild)
    obtain ⟨k, hk⟩ := List.getElem?_of_mem hmem
    obtain ⟨v, -, hv, hid, -, -, hdeclared⟩ := hc.exists_vertex_of_add h hk hroot hafter
    have hvname : v.properties.get? "name" = some (.text d.name) :=
      hdeclared _ (hc.declaredName?_of_toSyntaxTree hbare h hk hn hchild hsimple hreads)
    refine ⟨hreads, k, v, hk, hv, hvname, fun e he htarget => ?_, fun e he htarget => ?_⟩
    · obtain ⟨l, hrelates, hsource⟩ := hsound.exists_relates_of_target hcoherent hroot hafter
        .resolvesTo he (htarget.trans hid)
      obtain ⟨i, hi, hname⟩ := hc.reads_of_relates h rfl hd hk hrelates
      obtain ⟨u, text, hu, huid, hutext, htext, -⟩ := hc.exists_vertex_of_add h hi hroot hafter
      obtain rfl := hutext.unique hname
      refine ⟨u, ?_, htext.trans hvname.symm⟩
      rw [hsource, ← huid]
      exact (hcoherent.add hafter).vertexById? (Array.mem_toList_iff.2 (Array.mem_of_getElem? hu))
    · obtain ⟨l, hrelates, hsource⟩ := hsound.exists_relates_of_target hcoherent hroot hafter
        .calls he (htarget.trans hid)
      obtain ⟨i, hi, hcalls⟩ := hc.callsBy_of_relates h rfl hd hk hrelates
      exact ⟨l, i, hsource, hi, hcalls⟩
  · rintro language rfl
    exact hc.preOrdered.exists_process_of_toSyntaxTree h

/-- A function that calls itself in its body. -/
def namedRows : Cst := ofRows
  #[⟨none, "module", true, false, false, none, 0, 12, 0, 0, 0, 12⟩,
    ⟨some 0, "function_definition", true, false, false, none, 0, 12, 0, 0, 0, 12⟩,
    ⟨some 1, "def", false, false, false, none, 0, 3, 0, 0, 0, 3⟩,
    ⟨some 1, "identifier", true, false, false, some "name", 4, 5, 0, 4, 0, 5⟩,
    ⟨some 1, "block", true, false, false, some "body", 9, 12, 0, 9, 0, 12⟩,
    ⟨some 4, "call", true, false, false, none, 9, 12, 0, 9, 0, 12⟩,
    ⟨some 5, "identifier", true, false, false, some "function", 9, 10, 0, 9, 0, 10⟩]

theorem wellFormed_namedRows : namedRows.WellFormed "def f(): f()" where
  preOrdered := by decide +kernel
  covers
    | 0, _, rfl => ⟨"def f(): f()", "", "", by decide, by decide, by decide⟩
    | 1, _, rfl => ⟨"def f(): f()", "", "", by decide, by decide, by decide⟩
    | 2, _, rfl => ⟨"def", "", " f(): f()", by decide, by decide, by decide⟩
    | 3, _, rfl => ⟨"f", "def ", "(): f()", by decide, by decide, by decide⟩
    | 4, _, rfl => ⟨"f()", "def f(): ", "", by decide, by decide, by decide⟩
    | 5, _, rfl => ⟨"f()", "def f(): ", "", by decide, by decide, by decide⟩
    | 6, _, rfl => ⟨"f", "def f(): ", "()", by decide, by decide, by decide⟩

theorem bareTokens_namedRows : namedRows.BareTokens
  | 0, _, rfl, h => absurd h (by decide)
  | 1, _, rfl, h => absurd h (by decide)
  | 2, _, rfl, _ => by decide +kernel
  | 3, _, rfl, h => absurd h (by decide)
  | 4, _, rfl, h => absurd h (by decide)
  | 5, _, rfl, h => absurd h (by decide)
  | 6, _, rfl, h => absurd h (by decide)

theorem exists_relates_namedRows : ∃ t,
    namedRows.toSyntaxTree "def f(): f()" Language.python.tables .standard "a.py" 0 = .ok t ∧
      t.Relates .resolvesTo 5 1 := by
  have hrelated : (namedRows.toSyntaxTree "def f(): f()" Language.python.tables .standard "a.py"
      0).map (fun t => (t.related? 5 .resolvesTo).toOption) = .ok (some [1]) := by decide +kernel
  obtain ⟨t, ht, hone⟩ := map_eq_ok_iff.1 hrelated
  refine ⟨t, ht, ?_⟩
  cases hlinks : t.related? 5 .resolvesTo with
  | error e =>
    rw [hlinks] at hone
    cases hone
  | ok keys =>
    rw [hlinks] at hone
    cases hone
    exact ⟨_, hlinks, List.mem_singleton_self 1⟩

theorem declaredNames_of_toSyntaxTree_namedRows :
    namedRows.WellFormed "def f(): f()" ∧ namedRows.BareTokens ∧
    namedRows.kept false = [0, 1, 3, 4, 5, 6] ∧ ⟨1, "f", 0⟩ ∈ (make "def f(): f()" namedRows
      Language.python.tables .standard).declarations ∧
    namedRows.childByField? 1 "name" = some 3 ∧
    namedRows.kind 3 ∈ Language.python.tables.simpleNames ∧ ∃ t,
      namedRows.toSyntaxTree "def f(): f()" Language.python.tables .standard "a.py" 0 = .ok t ∧
      ∃ root, let after := (∅ : Conversion).process t.ast (t.sourceAttributes true) root
        after.2 = .ok () ∧ ∃ v u e, after.1.graph.vertices[1]? = some v ∧
          v.properties.get? "name" = some (.text "f") ∧
          e ∈ after.1.graph.edgesLabeled "RESOLVES_TO" ∧ e.target = v.id ∧
          after.1.graph.vertexById? e.source = some u ∧
          u.properties.get? "text" = some (.text "f") := by
  obtain ⟨t, ht, hrelates⟩ := exists_relates_namedRows
  have hname : namedRows.childByField? 1 "name" = some 3 := by decide +kernel
  have hkept : namedRows.kept false = [0, 1, 3, 4, 5, 6] := by decide +kernel
  have hsimple : namedRows.kind 3 ∈ Language.python.tables.simpleNames := by decide
  have hd : ⟨1, "f", 0⟩ ∈ (make "def f(): f()" namedRows Language.python.tables
      .standard).declarations := by decide +kernel
  obtain ⟨hnames, hexists⟩ :=
    declaredNames_of_toSyntaxTree wellFormed_namedRows bareTokens_namedRows ht hkept
  obtain ⟨root, hroot, hok⟩ := hexists .python rfl
  refine ⟨wellFormed_namedRows, bareTokens_namedRows, hkept, hd, hname, hsimple, t, ht, root, ?_⟩
  intro after
  obtain ⟨-, k, v, hk, hv, hvname, hresolved, -⟩ :=
    hnames root hroot [] hok _ hd 3 hname (by decide) hsimple
  have hplaces : ∀ k < 6, [0, 1, 3, 4, 5, 6][k]? = some 1 → k = 1 := by decide
  obtain rfl := hplaces k (List.getElem?_eq_some_iff.1 hk).1 hk
  have hv : after.1.graph.vertices[1]? = some v := hv
  have hadd : (∅ : Conversion).add t.ast (t.sourceAttributes true) root = .ok after.1 :=
    add_of_process hok
  have hid := (coherent_empty.add hadd).idAt? (Array.getElem?_eq_some_iff.1 hv).1
  rw [PropertyGraph.idAt?, hv] at hid
  have hsound := wellFormed_namedRows.preOrdered.sound_of_toSyntaxTree ht
  obtain ⟨e, he, -, htarget⟩ := hsound.exists_edge_of_relates hroot hadd (by decide) hrelates
  have hsame : e.target = v.id := htarget.trans (Option.some.inj hid).symm
  obtain ⟨u, hu, htext⟩ := hresolved e he hsame
  exact ⟨hok, v, u, e, hv, hvname, he, hsame, hu, htext.trans hvname⟩

end Cst

end CodeGraph

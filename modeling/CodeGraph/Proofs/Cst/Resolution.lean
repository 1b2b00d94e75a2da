import CodeGraph.Proofs.Cst.Targets
import CodeGraph.Proofs.Cst.Visibility

/-!
# References resolve to what they mean

A row that uses a name is linked to one node at most, that of the nearest declaration which it may
mean (`targets_of_uses`). In a syntax tree a reference that is not itself the name of a declaration
uses its own text, and may mean each declaration that is visible from it
(`resolvesTo_of_toSyntaxTree`).
-/

namespace CodeGraph

/-- Whether row `i` refers to what `name` means: it is a reference, and not the name of a
declaration. -/
structure Cst.Refers (c : Cst) (source : String) (tables : Language.Tables) (rows : List Nat)
    (i : Nat) (name : String) : Prop where
  reference : c.kind i ∈ tables.references
  notName : ∀ d n, c.Declares tables rows d n → n ≠ i
  reads : c.Reads source i name

namespace Outline

variable {o : Outline} {source : String} {i k : Nat}

theorem mem_nameRows_iff (hc : o.cst.WellFormed source) (ho : o.Ordered) (ht : o.ReadsFrom source)
    {n : Nat} : n ∈ o.nameRows ↔ ∃ d, o.cst.Declares o.tables o.kept d n := by
  rw [nameRows, List.mem_filterMap]
  constructor
  · rintro ⟨d, hd, hn⟩
    obtain ⟨⟨m, ⟨hi, hkind, hm⟩, -⟩, -⟩ := (mem_declarations_iff ho ht).1 hd
    exact ⟨d.row, hi, hkind, hn⟩
  · rintro ⟨r, hdeclares⟩
    obtain ⟨text, hread⟩ :=
      hc.exists_reads (Cst.childByField?_lt_size (ho.inside r hdeclares.1) hdeclares.2.2)
    exact ⟨⟨r, text, o.owner r⟩, (mem_declarations_iff ho ht).2 ⟨⟨n, hdeclares, hread⟩, rfl⟩,
      hdeclares.2.2⟩

/-- A row that is linked to what a name means has the key of the nearest declaration which that may
be, if there is one. -/
theorem targets_of_uses (ho : o.Ordered) (ht : o.ReadsFrom source) (hi : o.kept[k]? = some i)
    {relation : Relation} {link : Option Link} {uses : String → Prop}
    {p : String → Declaration → Bool} {candidate : String → Nat → Prop}
    (hlink : ∀ l, link = some l ↔ ∃ name d, uses name ∧
      o.visible? (o.declarations.filter (p name)) i = some d ∧ o.link? i relation d.row = some l)
    (hp : ∀ name r, candidate name r ↔
      ∃ d ∈ o.declarations, p name d = true ∧ d.row = r ∧ d.owner ∈ o.scopes i) :
    (link.toList.map (·.target) ≠ [] ↔ ∃ name d, uses name ∧ candidate name d) ∧
    ∀ j ∈ link.toList.map (·.target), link.toList.map (·.target) = [j] ∧ ∃ name d, uses name ∧
      o.kept[j]? = some d ∧ o.cst.Nearest o.tables o.kept (candidate name) d := by
  have hfound : ∀ l, link = some l → ∃ name d, uses name ∧ o.kept[l.target]? = some d ∧
      o.cst.Nearest o.tables o.kept (candidate name) d := by
    intro l hl
    obtain ⟨name, d, hname, hvisible, hd⟩ := (hlink l).1 hl
    obtain ⟨-, -, hkey⟩ := link?_eq_some_iff.1 hd
    exact ⟨name, d.row, hname, (ho.keys _ _).1 hkey, nearest_of_visible? ho ht (hp name) hvisible⟩
  refine ⟨⟨?_, ?_⟩, ?_⟩
  · intro hne
    cases hl : link with
    | none => exact absurd (by rw [hl]; rfl) hne
    | some l =>
      obtain ⟨name, d, hname, -, hnearest⟩ := hfound l hl
      exact ⟨name, d, hname, hnearest.isCandidate⟩
  · rintro ⟨name, r, hname, hr⟩
    obtain ⟨d, hvisible⟩ := (exists_visible?_iff (hp name)).2 ⟨r, hr⟩
    obtain ⟨hmem, -⟩ := visible?_eq_some ho (ho.pairwise_declarations.filter _) hvisible
    obtain ⟨⟨n, hdeclares, -⟩, -⟩ := (mem_declarations_iff ho ht).1 (List.mem_filter.1 hmem).1
    obtain ⟨target, htarget⟩ := List.getElem?_of_mem hdeclares.1
    have hsome : link = some ⟨k, relation, target⟩ := (hlink _).2 ⟨name, d, hname, hvisible,
      link?_eq_some_iff.2 ⟨(ho.keys i k).2 hi, rfl, (ho.keys _ _).2 htarget⟩⟩
    rw [hsome]
    exact List.cons_ne_nil _ _
  · intro j hj
    obtain ⟨l, hl, rfl⟩ := List.mem_map.1 hj
    rw [Option.mem_toList] at hl
    exact ⟨by rw [hl]; rfl, hfound l hl⟩

theorem resolvesToLink?_eq_some_iff_refers (hc : o.cst.WellFormed source) (ho : o.Ordered)
    (ht : o.ReadsFrom source) (hi : i < o.cst.size) {l : Link} :
    o.resolvesToLink? o.declarations o.nameRows i = some l ↔
      ∃ name d, o.cst.Refers source o.tables o.kept i name ∧
        o.visible? (o.declarations.filter (·.name == name)) i = some d ∧
        o.link? i .resolvesTo d.row = some l := by
  rw [resolvesToLink?_eq_some_iff, mem_nameRows_iff hc ho ht, Language.Tables.isReference,
    List.contains_iff_mem]
  constructor
  · rintro ⟨href, hnone, name, d, htext, hd, hl⟩
    have hname : ∀ d n, o.cst.Declares o.tables o.kept d n → n ≠ i := by
      rintro d n hdeclares rfl
      exact hnone ⟨d, hdeclares⟩
    exact ⟨name, d, ⟨href, hname, (ht i hi name).1 htext⟩, hd, hl⟩
  · rintro ⟨name, d, ⟨href, hname, hread⟩, hd, hl⟩
    exact ⟨href, fun ⟨d, hdeclares⟩ => hname d i hdeclares rfl, name, d, (ht i hi name).2 hread, hd,
      hl⟩

end Outline

namespace Cst

open Outline

variable {c : Cst} {source path : String} {tables : Language.Tables} {config : Config}
  {number : UInt32} {t : SyntaxTree} {rows : List Nat}

/-- **References resolve lexically.** In a syntax tree of a well-formed source, with a node for each
kept row, a node resolves to something if and only if its row refers to a name with which a
declaration is visible from it. Then it resolves to one node, that of the nearest such
declaration. -/
theorem resolvesTo_of_toSyntaxTree (hc : c.WellFormed source)
    (h : c.toSyntaxTree source tables config path number = .ok t)
    (hemits : config.emits .resolvesTo = true) (hrows : c.kept config.includeAnonymous = rows) :
    t.size = rows.length ∧ ∀ k i, rows[k]? = some i → ∃ keys, t.related? k .resolvesTo = .ok keys ∧
      (keys ≠ [] ↔ ∃ name d, c.Refers source tables rows i name ∧
        c.Visible source tables rows i name d) ∧
      ∀ j ∈ keys, keys = [j] ∧ ∃ name d, c.Refers source tables rows i name ∧ rows[j]? = some d ∧
        c.Nearest tables rows (c.Visible source tables rows i name) d := by
  subst hrows
  refine ⟨hc.preOrdered.size_of_toSyntaxTree h, fun k i hi => ?_⟩
  have ho := ordered_make hc.preOrdered source tables config
  have ht := readsFrom_make hc tables config
  have hsize : i < c.size := ho.inside i (List.mem_of_getElem? hi)
  refine ⟨_, hc.preOrdered.related?_resolvesTo h hi hemits, ?_⟩
  refine targets_of_uses ho ht hi (fun l => resolvesToLink?_eq_some_iff_refers hc ho ht hsize)
    fun name r => ?_
  exact (visible_iff ho ht).trans (by simp only [beq_iff_eq])

theorem resolvesTo_of_toSyntaxTree_recursiveRows :
    recursiveRows.WellFormed "def f(): f()" ∧ Config.standard.emits .resolvesTo = true ∧ ∃ t,
      recursiveRows.toSyntaxTree "def f(): f()" Language.python.tables .standard "a.py" 0 = .ok t ∧
      recursiveRows.kept false = [0, 1, 3, 5, 6] ∧ t.related? 4 .resolvesTo = .ok [1] := by
  obtain ⟨t, ht⟩ := wellFormed_recursiveRows.exists_toSyntaxTree Language.python.tables .standard
    "a.py" 0 fun h => absurd h (by decide)
  have hkept : recursiveRows.kept false = [0, 1, 3, 5, 6] := by decide +kernel
  obtain ⟨-, hnodes⟩ := resolvesTo_of_toSyntaxTree wellFormed_recursiveRows ht rfl hkept
  obtain ⟨keys, hkeys, hiff, hall⟩ := hnodes 4 6 rfl
  have hname : ∀ d ∈ [0, 1, 3, 5, 6], recursiveRows.childByField? d "name" ≠ some 6 := by
    decide +kernel
  have hrefers : recursiveRows.Refers "def f(): f()" Language.python.tables [0, 1, 3, 5, 6] 6 "f" :=
    { reference := by decide
      notName := by
        rintro d n ⟨hd, -, hn⟩ rfl
        exact hname d hd hn
      reads := reads_recursiveRows }
  have hne : keys ≠ [] := hiff.2 ⟨"f", 1, hrefers, visible_recursiveRows⟩
  obtain ⟨j, hj⟩ := List.exists_mem_of_ne_nil keys hne
  obtain ⟨rfl, name, d, -, hd, hnearest⟩ := hall j hj
  obtain ⟨n, ⟨hmem, hkind, -⟩, -⟩ := hnearest.isCandidate.named
  have hfunction : ∀ j < 5, ∀ d ∈ [0, 1, 3, 5, 6], [0, 1, 3, 5, 6][j]? = some d →
      recursiveRows.kind d ∈ Language.python.tables.declarations → j = 1 := by decide +kernel
  obtain rfl : j = 1 := hfunction j (List.getElem?_eq_some_iff.1 hd).1 d hmem hd hkind
  exact ⟨wellFormed_recursiveRows, rfl, t, ht, hkept, hkeys⟩

end Cst

end CodeGraph

import CodeGraph.Proofs.Cst.Contraction
import CodeGraph.Proofs.Cst.Extension

/-!
# Tokens among the nodes

With the tokens of the grammar among its nodes, a syntax tree has those that it has without them and
some in between. If the language lists no kind of a token, the smaller tree is found in the larger:
rows give nodes with the same data and the same targets in the same order, and the parent of a node
is the nearest that is found above it (`embeds_of_toSyntaxTree`).
-/

namespace CodeGraph

namespace SyntaxTree

/-- The keys above a key, from its parent to the root. -/
def ancestorKeys (t : SyntaxTree) (k : Nat) : List Nat :=
  match t.parentKey? k with
  | some parent => if parent < k then parent :: t.ancestorKeys parent else []
  | none => []
termination_by k

/-- Whether a syntax tree is found in another with the keys that `f` gives its nodes. -/
structure Embeds (f : Nat → Nat) (t t' : SyntaxTree) : Prop where
  inside : ∀ k < t.size, f k < t'.size
  order : ∀ k l, k < l → l < t.size → f k < f l
  data : ∀ k < t.size, (t'.nodes[f k]?).map (·.data) = (t.nodes[k]?).map (·.data)
  targets : ∀ k < t.size, ∀ relation, relation ≠ .structural → ∃ keys,
    t.related? k relation = .ok keys ∧ t'.related? (f k) relation = .ok (keys.map f)
  others : ∀ k < t'.size, (∀ l < t.size, f l ≠ k) → ∀ relation, relation ≠ .structural →
    t'.related? k relation = .ok []
  parents : ∀ k, 0 < k → k < t.size → ∃ p, t.parentKey? k = some p ∧
    (t'.ancestorKeys (f k)).find? (· ∈ (List.range t.size).map f) = some (f p)

end SyntaxTree

namespace Outline

open Attempt SyntaxTree

variable {o o' : Outline} {i k p : Nat} {l : Link}

/-- What a syntax tree shows of the outline that it is made of. -/
structure Shown (o : Outline) (config : Config) (t : SyntaxTree) : Prop where
  size : t.size = o.kept.length
  data : o.Carries t
  parents : ∀ k, t.parentKey? k = o.parentKey? k
  targets : ∀ k < t.size, ∀ relation, relation ≠ .structural → t.related? k relation =
    .ok ((((o.emitted config).filter (·.leaves k relation)).map (·.target)).foldl addTarget [])

theorem Ordered.scopes_eq_cons (ho : o.Ordered) (hi : o.kept[k]? = some i)
    (hp : o.parentKey? k = some p) :
    ∃ q, o.kept[p]? = some q ∧ o.scopes i = p :: o.scopes q := by
  obtain ⟨j, q, hj, hq, hmem, -⟩ := ho.parentKey?_eq_some hp
  obtain rfl : i = j := Option.some.inj (hi.symm.trans hj)
  refine ⟨q, hq, ?_⟩
  rw [parentKey?, hi, Option.bind_some, List.head?_eq_some_iff] at hp
  obtain ⟨outer, houter⟩ := hp
  obtain ⟨nearer, hnearer⟩ := Cst.suffix_ancestors hmem
  have hsplit : o.scopes i = nearer.filterMap o.key? ++ p :: o.scopes q := by
    rw [scopes, ← hnearer, List.filterMap_append, List.filterMap_cons, (ho.keys q p).2 hq]
    rfl
  -- The nearest kept row comes once, so that none is nearer.
  cases hnone : nearer.filterMap o.key? with
  | nil => rw [hsplit, hnone, List.nil_append]
  | cons first others =>
    have hpairwise := ho.pairwise_scopes i
    rw [hnone, houter, List.cons_append, List.cons.injEq] at hsplit
    rw [houter, hsplit.2] at hpairwise
    exact absurd ((List.pairwise_cons.1 hpairwise).1 p (by simp)) (Nat.lt_irrefl p)

theorem Ordered.ancestorKeys_eq {t : SyntaxTree} (ho : o.Ordered)
    (hparents : ∀ k, t.parentKey? k = o.parentKey? k) (hi : o.kept[k]? = some i) :
    t.ancestorKeys k = o.scopes i := by
  induction k using Nat.strongRecOn generalizing i with
  | ind k ih =>
    rw [ancestorKeys, hparents]
    cases hp : o.parentKey? k with
    | none =>
      rw [parentKey?, hi, Option.bind_some, List.head?_eq_none_iff] at hp
      exact hp.symm
    | some p =>
      have hlt := ho.parentKey?_lt hp
      obtain ⟨q, hq, hscopes⟩ := ho.scopes_eq_cons hi hp
      simp only [if_pos hlt, ih p hlt hq, hscopes]

theorem source_lt_of_mem_links (ho : o.Ordered) (h : l ∈ o.links) : l.source < o.kept.length := by
  rcases List.mem_append.1 h with h | h
  · obtain ⟨d, hd, hlink⟩ := List.mem_filterMap.1 h
    obtain ⟨target, -, rfl⟩ := Option.map_eq_some_iff.1 hlink
    exact ho.owner_lt hd
  · obtain ⟨j, -, h⟩ := List.mem_flatMap.1 h
    have hkey := source_of_mem_rowLinks h
    exact (List.getElem?_eq_some_iff.1 ((ho.keys j _).1 hkey)).1

namespace ExtendedBy

variable {config config' : Config} {t t' : SyntaxTree} (h : o.ExtendedBy o')

include h

theorem nodeData_eq (i : Nat) (r : Cst.Row) : o'.nodeData i r = o.nodeData i r := by
  unfold nodeData text
  rw [h.source, h.cst, h.tables]

theorem any_key? (a : Nat) :
    (o'.key? a).any (· ∈ (List.range o.kept.length).map (o.rekey o')) = decide (a ∈ o.kept) := by
  by_cases ha : a ∈ o.kept
  · obtain ⟨k, hk⟩ := List.getElem?_of_mem ha
    have hlt := (List.getElem?_eq_some_iff.1 hk).1
    rw [decide_eq_true ha, h.key?_eq fun _ => ha, (h.ordered.keys a k).2 hk, Option.map_some,
      Option.any_some]
    exact decide_eq_true (List.mem_map_of_mem (List.mem_range.2 hlt))
  · rw [decide_eq_false ha]
    cases hkey : o'.key? a with
    | none => rfl
    | some k =>
      rw [Option.any_some, decide_eq_false_iff_not]
      intro hmem
      obtain ⟨l, hl, heq⟩ := List.mem_map.1 hmem
      exact h.rekey_ne ha hkey (List.mem_range.1 hl) heq

/-- Above a row, the nearest key that is led to is that of the parent. -/
theorem find?_scopes (hi : o.kept[k]? = some i) (hp : o.parentKey? k = some p) :
    (o'.scopes i).find? (· ∈ (List.range o.kept.length).map (o.rekey o')) =
      some (o.rekey o' p) := by
  obtain ⟨j, q, hj, hq, hnearest⟩ := Cst.find?_ancestors h.ordered hp
  obtain rfl : i = j := Option.some.inj (hi.symm.trans hj)
  rw [scopes, h.cst, List.find?_filterMap, Lists.find?_congr fun a _ => h.any_key? a, hnearest,
    Option.bind_some, h.key?_eq fun _ => List.mem_of_getElem? hq, (h.ordered.keys q p).2 hq,
    Option.map_some]

theorem filter_emitted_eq
    (hconfig : ∀ relation, config'.emits relation = config.emits relation)
    (hk : k < o.kept.length) (relation : Relation) :
    (o'.emitted config').filter (·.leaves (o.rekey o' k) relation) =
      ((o.emitted config).filter (·.leaves k relation)).map (.rekey (o.rekey o')) := by
  rw [emitted, emitted, h.links_eq, List.filter_filter, List.filter_filter, List.filter_map]
  refine congrArg _ (List.filter_congr fun l hl => ?_)
  have hsource : o.rekey o' l.source = o.rekey o' k ↔ l.source = k :=
    h.rekey_inj (source_lt_of_mem_links h.ordered hl) hk
  have hleaves : (l.rekey (o.rekey o')).leaves (o.rekey o' k) relation = l.leaves k relation := by
    rw [Bool.eq_iff_iff, Link.leaves_iff, Link.leaves_iff]
    exact and_congr_left' hsource
  rw [Function.comp_apply, hleaves, hconfig]
  rfl

theorem filter_emitted_eq_nil (hk : ∀ l < o.kept.length, o.rekey o' l ≠ k)
    (relation : Relation) : (o'.emitted config').filter (·.leaves k relation) = [] := by
  rw [List.filter_eq_nil_iff]
  intro l hl hleaves
  have hmem := (List.mem_filter.1 hl).1
  rw [h.links_eq] at hmem
  obtain ⟨link, hlink, rfl⟩ := List.mem_map.1 hmem
  exact hk link.source (source_lt_of_mem_links h.ordered hlink) (Link.leaves_iff.1 hleaves).1

theorem data_eq (ht : o.Shown config t) (ht' : o'.Shown config' t') (hk : k < t.size) :
    (t'.nodes[o.rekey o' k]?).map (·.data) = (t.nodes[k]?).map (·.data) := by
  have hx : t.nodes[k]? = some t.nodes[k] := Array.getElem?_eq_getElem hk
  obtain ⟨i, r, hi, hr, hdata⟩ := ht.data k _ hx
  have hrow := h.getElem?_rekey hi
  have hk' : o.rekey o' k < t'.size := by
    rw [ht'.size]
    exact (List.getElem?_eq_some_iff.1 hrow).1
  have hy : t'.nodes[o.rekey o' k]? = some t'.nodes[o.rekey o' k] := Array.getElem?_eq_getElem hk'
  obtain ⟨j, s, hj, hs, hdata'⟩ := ht'.data _ _ hy
  obtain rfl : i = j := Option.some.inj (hrow.symm.trans hj)
  obtain rfl : r = s := Option.some.inj (hr.symm.trans (h.cst ▸ hs))
  rw [h.nodeData_eq, hdata, Except.ok.injEq] at hdata'
  rw [hx, hy, Option.map_some, Option.map_some, hdata']

theorem related?_eq (ht : o.Shown config t) (ht' : o'.Shown config' t')
    (hconfig : ∀ relation, config'.emits relation = config.emits relation) (hk : k < t.size)
    (hk' : o.rekey o' k < t'.size) {relation : Relation} (hrel : relation ≠ .structural) :
    ∃ keys, t.related? k relation = .ok keys ∧
      t'.related? (o.rekey o' k) relation = .ok (keys.map (o.rekey o')) := by
  refine ⟨_, ht.targets k hk relation hrel, ?_⟩
  rw [ht'.targets _ hk' relation hrel, h.filter_emitted_eq hconfig (ht.size ▸ hk), List.map_map]
  have hinj : ∀ i < o.kept.length, ∀ j < o.kept.length,
      o.rekey o' i = o.rekey o' j → i = j := fun i hi j hj => (h.rekey_inj hi hj).1
  have hinside : ∀ i ∈ ((o.emitted config).filter (·.leaves k relation)).map (·.target),
      i < o.kept.length := by
    intro i hi
    obtain ⟨l, hl, rfl⟩ := List.mem_map.1 hi
    obtain ⟨-, j, hj, -⟩ := valid_of_mem_emitted h.ordered l (List.mem_filter.1 hl).1
    exact (List.getElem?_eq_some_iff.1 hj).1
  rw [← foldl_addTarget_map hinj (by simp) hinside, List.map_map]
  rfl

theorem embeds (ht : o.Shown config t) (ht' : o'.Shown config' t')
    (hconfig : ∀ relation, config'.emits relation = config.emits relation) :
    t.Embeds (o.rekey o') t' := by
  have hrow : ∀ k < t.size, ∃ i, o.kept[k]? = some i := fun k hk =>
    ⟨_, List.getElem?_eq_getElem (ht.size ▸ hk)⟩
  have hinside : ∀ k < t.size, o.rekey o' k < t'.size := by
    intro k hk
    obtain ⟨i, hi⟩ := hrow k hk
    rw [ht'.size]
    exact (List.getElem?_eq_some_iff.1 (h.getElem?_rekey hi)).1
  constructor
  case inside => exact hinside
  case order =>
    intro k l hkl hl
    have hlt : l < o.kept.length := ht.size ▸ hl
    exact (h.rekey_lt_iff (Nat.lt_trans hkl hlt) hlt).2 hkl
  case data => exact fun k => h.data_eq ht ht'
  case targets => exact fun k hk relation => h.related?_eq ht ht' hconfig hk (hinside k hk)
  case others =>
    intro k hk hnew relation hrel
    rw [ht'.targets k hk relation hrel, h.filter_emitted_eq_nil (ht.size ▸ hnew)]
    rfl
  case parents =>
    intro k hpos hk
    obtain ⟨i, hi⟩ := hrow k hk
    obtain ⟨p, hp⟩ := h.ordered.exists_parentKey? hpos (ht.size ▸ hk)
    refine ⟨p, (ht.parents k).trans hp, ?_⟩
    rw [h.ordered'.ancestorKeys_eq ht'.parents (h.getElem?_rekey hi), ht.size]
    exact h.find?_scopes hi hp

end ExtendedBy

end Outline

namespace Cst

open Attempt Outline SyntaxTree

variable {c : Cst} {source path : String} {tables : Language.Tables} {config : Config}
  {number : UInt32} {t : SyntaxTree}

theorem extendedBy_make (hc : c.PreOrdered) (source : String) (config : Config)
    (hplain : ∀ r ∈ c.rows, r.named = false → r.kind ∉ tables.kinds) :
    (make source c tables { config with includeAnonymous := false }).ExtendedBy
      (make source c tables { config with includeAnonymous := true }) where
  ordered := ordered_make hc source tables _
  ordered' := ordered_make hc source tables _
  source := rfl
  cst := rfl
  tables := rfl
  kept := by
    refine ⟨fun i => i == 0 || c.rows[i]?.any (·.keep false), ?_⟩
    change c.kept false = (c.kept true).filter _
    rw [kept, kept, List.filter_filter]
    refine List.filter_congr fun i _ => ?_
    cases c.rows[i]? with
    | none => simp
    | some r => cases hmissing : r.missing <;> cases hnamed : r.named <;> simp [Row.keep, *]
  plain := by
    intro i hi hnew
    change i ∈ c.kept true at hi
    change i ∉ c.kept false at hnew
    change c.kind i ∉ tables.kinds
    rw [mem_kept_iff] at hi hnew
    obtain ⟨hlt, rfl | ⟨r, hr, hkeep⟩⟩ := hi
    · exact absurd ⟨hlt, .inl rfl⟩ hnew
    -- A row that is kept only with the tokens is a token.
    · rw [kind, hr]
      refine hplain r (Array.mem_of_getElem? hr)
        (eq_false_of_ne_true fun hnamed => hnew ⟨hlt, .inr ⟨r, hr, ?_⟩⟩)
      simpa [Row.keep, hnamed] using hkeep

theorem PreOrdered.shown_of_toSyntaxTree (hc : c.PreOrdered)
    (h : c.toSyntaxTree source tables config path number = .ok t) :
    (make source c tables config).Shown config t := by
  have hrelated := fun k (hk : k < t.size) (relation : Relation)
      (hrel : relation ≠ .structural) => hc.related?_eq_emitted h hk hrel
  obtain ⟨shape, hshape, rfl⟩ := exists_shape h
  have hcopies := copies_of_shape (ordered_make hc source tables config) hshape
  refine ⟨(size_withLinks ..).trans hcopies.size, hcopies.data.withLinks _, fun k => ?_, hrelated⟩
  rw [parentKey?_withLinks, hcopies.parents]
  split
  · rfl
  · next hk =>
    rw [Outline.parentKey?, List.getElem?_eq_none (Nat.le_of_not_lt hk)]
    rfl

theorem WellFormed.error_iff (hc : c.WellFormed source) {config' : Config}
    (hstrict : config'.strict = config.strict) (number' : UInt32) (e : SourceError) :
    c.toSyntaxTree source tables config path number = .error e ↔
      c.toSyntaxTree source tables config' path number' = .error e := by
  cases hrefused : if config.strict then c.firstError? else none with
  | some r =>
    rw [toSyntaxTree, toSyntaxTree, hstrict, hrefused]
  | none =>
    have hfine : config.strict = true → c.firstError? = none := fun hs => by
      rwa [if_pos hs] at hrefused
    obtain ⟨t, ht⟩ := hc.exists_toSyntaxTree tables config path number hfine
    obtain ⟨t', ht'⟩ := hc.exists_toSyntaxTree tables config' path number' (hstrict ▸ hfine)
    rw [ht, ht']
    simp

/-- **Tokens only add nodes.** Let no token of a well-formed source be of a listed kind. Whether it
is refused does not depend on whether tokens become nodes. The syntax tree without tokens is found
in the one with them, each node at the node of the same row: in order and with the same data, with
the same targets in order under each relation but the shape, which no other node has any of, and
below the nearest node above that is found. -/
theorem embeds_of_toSyntaxTree (hc : c.WellFormed source)
    (hplain : ∀ r ∈ c.rows, r.named = false → r.kind ∉ tables.kinds)
    (config : Config) (path : String) (number number' : UInt32) :
    (∀ e, c.toSyntaxTree source tables { config with includeAnonymous := false } path number =
        .error e ↔
      c.toSyntaxTree source tables { config with includeAnonymous := true } path number' =
        .error e) ∧
    ∀ t t',
      c.toSyntaxTree source tables { config with includeAnonymous := false } path number = .ok t →
      c.toSyntaxTree source tables { config with includeAnonymous := true } path number' = .ok t' →
      ∃ f, (∀ k < t.size, ∃ i, (c.kept false)[k]? = some i ∧ (c.kept true)[f k]? = some i) ∧
        t.Embeds f t' := by
  refine ⟨fun e => hc.error_iff (by rfl) number' e, fun t t' ht ht' => ?_⟩
  have hextends := extendedBy_make hc.preOrdered source config hplain
  have hshown := hc.preOrdered.shown_of_toSyntaxTree ht
  have hshown' := hc.preOrdered.shown_of_toSyntaxTree ht'
  refine ⟨_, fun k hk => ?_, hextends.embeds hshown hshown' fun _ => rfl⟩
  have hi := List.getElem?_eq_getElem (hshown.size ▸ hk)
  exact ⟨_, hi, hextends.getElem?_rekey hi⟩

theorem embeds_recursiveRows :
    recursiveRows.WellFormed "def f(): f()" ∧
    (∀ r ∈ recursiveRows.rows, r.named = false → r.kind ∉ Language.python.tables.kinds) ∧
    ∃ t t' f, recursiveRows.toSyntaxTree "def f(): f()" Language.python.tables .standard "a.py" 0 =
        .ok t ∧
      recursiveRows.toSyntaxTree "def f(): f()" Language.python.tables
        { Config.standard with includeAnonymous := true } "a.py" 1 = .ok t' ∧
      t.size = 5 ∧ t'.size = 7 ∧ t.Embeds f t' := by
  have hplain : ∀ r ∈ recursiveRows.rows,
      r.named = false → r.kind ∉ Language.python.tables.kinds := by decide +kernel
  have hsize : (recursiveRows.toSyntaxTree "def f(): f()" Language.python.tables .standard "a.py"
      0).map (·.size) = .ok 5 := by decide +kernel
  have hsize' : (recursiveRows.toSyntaxTree "def f(): f()" Language.python.tables
      { Config.standard with includeAnonymous := true } "a.py" 1).map (·.size) = .ok 7 := by
    decide +kernel
  obtain ⟨t, ht, hfive⟩ := map_eq_ok_iff.1 hsize
  obtain ⟨t', ht', hseven⟩ := map_eq_ok_iff.1 hsize'
  obtain ⟨-, hembeds⟩ := embeds_of_toSyntaxTree wellFormed_recursiveRows hplain .standard "a.py" 0 1
  obtain ⟨f, -, hf⟩ := hembeds t t' ht ht'
  exact ⟨wellFormed_recursiveRows, hplain, t, t', f, ht, ht', hfive, hseven, hf⟩

end Cst

end CodeGraph

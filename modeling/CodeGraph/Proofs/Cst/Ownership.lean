import CodeGraph.Proofs.Cst.Embedding
import CodeGraph.Proofs.Cst.Visibility
import Mathlib.Logic.Relation

/-!
# What is declared where

Each named declaration is declared once, in its owner: the nearest declaration above it, or the root
(`Owns`). An owner lies structurally above what it declares, unless a root that is a declaration
itself declares itself, so the links are acyclic (`declares_of_toSyntaxTree`).
-/

namespace CodeGraph

namespace Cst

section specification

variable (c : Cst) (tables : Language.Tables) (rows : List Nat)

/-- Whether `a` is the nearest declaration above row `i`. -/
structure NearestDeclaration (a i : Nat) : Prop where
  above : a ∈ c.ancestors i
  declares : c.kind a ∈ tables.declarations
  nearest : ∀ b ∈ c.ancestors i, c.kind b ∈ tables.declarations → b ≤ a

/-- Whether the row `owner`, which is one of `rows`, owns row `i`. -/
inductive Owns (i : Nat) : (owner : Nat) → Prop
  | nearest (a : Nat) (h : c.NearestDeclaration tables a i) (hkept : a ∈ rows) : Owns i a
  /-- A declaration that is left out leaves what is below it to the root. -/
  | dropped (a : Nat) (h : c.NearestDeclaration tables a i) (hdropped : a ∉ rows) : Owns i 0
  | root (h : ∀ a, ¬ c.NearestDeclaration tables a i) : Owns i 0

end specification

variable {c : Cst} {tables : Language.Tables} {rows : List Nat} {i a owner : Nat}

theorem nearestDeclaration_of_find?
    (h : (c.ancestors i).find? (c.kind · ∈ tables.declarations) = some a) :
    c.NearestDeclaration tables a i := by
  obtain ⟨hkind, nearer, farther, hsplit, hnone⟩ := List.find?_eq_some_iff_append.1 h
  refine ⟨by simp [hsplit], by simpa using hkind, fun b hb hdeclares => ?_⟩
  have hdescending := c.pairwise_ancestors i
  rw [hsplit] at hb hdescending
  rcases List.mem_append.1 hb with hb | hb
  · exact absurd hdeclares (by simpa using hnone b hb)
  · rcases List.mem_cons.1 hb with rfl | hb
    · exact Nat.le_refl _
    · exact Nat.le_of_lt ((List.pairwise_cons.1 (List.pairwise_append.1 hdescending).2.1).1 b hb)

theorem find?_declaration_eq_some_iff :
    (c.ancestors i).find? (c.kind · ∈ tables.declarations) = some a ↔
      c.NearestDeclaration tables a i := by
  constructor
  · exact nearestDeclaration_of_find?
  · intro h
    obtain ⟨b, hb⟩ : ∃ b, (c.ancestors i).find? (c.kind · ∈ tables.declarations) = some b := by
      rw [← Option.isSome_iff_exists, List.find?_isSome]
      exact ⟨a, h.above, by simpa using h.declares⟩
    have hother := nearestDeclaration_of_find? hb
    have hle := h.nearest b hother.above hother.declares
    have hge := hother.nearest a h.above h.declares
    rw [hb, Nat.le_antisymm hle hge]

theorem owns_iff : c.Owns tables rows i owner ↔ owner = c.ownerRow tables rows i := by
  rw [ownerRow]
  constructor
  · rintro (⟨a, ha, hkept⟩ | ⟨a, ha, hdropped⟩ | hnone)
    · simp [find?_declaration_eq_some_iff.2 ha, Option.filter_some, hkept]
    · simp [find?_declaration_eq_some_iff.2 ha, Option.filter_some, hdropped]
    · have hfind : (c.ancestors i).find? (c.kind · ∈ tables.declarations) = none :=
        Option.eq_none_iff_forall_ne_some.2 fun a ha =>
          hnone a (find?_declaration_eq_some_iff.1 ha)
      simp [hfind]
  · rintro rfl
    cases hfind : (c.ancestors i).find? (c.kind · ∈ tables.declarations) with
    | none =>
      refine .root fun a ha => ?_
      rw [find?_declaration_eq_some_iff.2 ha] at hfind
      cases hfind
    | some a =>
      have ha := find?_declaration_eq_some_iff.1 hfind
      by_cases hkept : a ∈ rows
      · simpa [Option.filter_some, hkept] using Owns.nearest a ha hkept
      · simpa [Option.filter_some, hkept] using Owns.dropped a ha hkept

theorem PreOrdered.owner_mem_ancestors (hc : c.PreOrdered) (h : c.Owns tables rows i owner)
    (hpos : 0 < i) (hi : i < c.size) : owner ∈ c.ancestors i := by
  cases h with
  | nearest _ h => exact h.above
  | dropped _ _ _ => exact hc.zero_mem_ancestors hpos hi
  | root _ => exact hc.zero_mem_ancestors hpos hi

end Cst

namespace SyntaxTree

/-- What the keys above a key lead down to. -/
theorem Sound.transGen_structural {t : SyntaxTree} (h : t.Sound) {k j : Nat}
    (hk : k ∈ t.ancestorKeys j) : Relation.TransGen (t.Relates .structural) k j := by
  induction j using Nat.strongRecOn with
  | ind j ih =>
    rw [ancestorKeys] at hk
    split at hk
    · next parent hparent =>
      split at hk
      · next hlt =>
        have hlast := h.relates_structural_iff.2 hparent
        rcases List.mem_cons.1 hk with rfl | hk
        · exact .single hlast
        · exact (ih parent hlt hk).tail hlast
      · cases hk
    · cases hk

end SyntaxTree

namespace Outline

open SyntaxTree

variable {o : Outline} {source : String} {k j : Nat}

/-! ## The links of declarations -/

theorem filter_links_declares (k : Nat) :
    o.links.filter (·.leaves k .declares) =
      (o.declaresLinks o.declarations).filter (·.leaves k .declares) := by
  have hrows : (o.kept.flatMap (o.rowLinks o.declarations o.nameRows)).filter
      (·.leaves k .declares) = [] := by
    rw [List.filter_eq_nil_iff]
    intro l hl hleaves
    obtain ⟨i, -, hl⟩ := List.mem_flatMap.1 hl
    exact relation_of_mem_rowLinks hl (Link.leaves_iff.1 hleaves).2
  change (o.declaresLinks o.declarations ++ _).filter _ = _
  rw [List.filter_append]
  exact (congrArg _ hrows).trans (List.append_nil _)

theorem Ordered.pairwise_declaresLinks (ho : o.Ordered) :
    (o.declaresLinks o.declarations).Pairwise fun l m => l.target < m.target := by
  refine ho.pairwise_declarations.filterMap _ fun d e hde l hl m hm => ?_
  obtain ⟨target, htarget, rfl⟩ := Option.map_eq_some_iff.1 hl
  obtain ⟨other, hother, rfl⟩ := Option.map_eq_some_iff.1 hm
  exact (ho.row_lt_iff ((ho.keys _ _).1 htarget) ((ho.keys _ _).1 hother)).1 hde

/-- The keys that are declared in a node. -/
def declaredKeys (o : Outline) (k : Nat) : List Nat :=
  ((o.declaresLinks o.declarations).filter (·.leaves k .declares)).map (·.target)

theorem Ordered.pairwise_declaredKeys (ho : o.Ordered) (k : Nat) :
    (o.declaredKeys k).Pairwise (· < ·) :=
  List.pairwise_map.2 (ho.pairwise_declaresLinks.filter _)

theorem mem_declaredKeys_iff (hc : o.cst.WellFormed source) (ho : o.Ordered)
    (ht : o.ReadsFrom source) :
    j ∈ o.declaredKeys k ↔ ∃ r d n, o.kept[k]? = some r ∧ o.kept[j]? = some d ∧
      o.cst.Declares o.tables o.kept d n ∧ o.cst.Owns o.tables o.kept d r := by
  simp only [declaredKeys, List.mem_map, List.mem_filter, Link.leaves_iff, declaresLinks,
    List.mem_filterMap, Option.map_eq_some_iff, Cst.owns_iff]
  constructor
  · rintro ⟨_, ⟨⟨d, hd, target, htarget, rfl⟩, hsource, -⟩, rfl⟩
    obtain ⟨⟨n, hdeclares, -⟩, howner⟩ := (mem_declarations_iff ho ht).1 hd
    have hkept := ho.kept_owner d.row
    rw [← howner] at hkept
    exact ⟨_, d.row, n, hsource ▸ hkept, (ho.keys _ _).1 htarget, hdeclares, rfl⟩
  · rintro ⟨_, d, n, hk, hj, hdeclares, rfl⟩
    obtain ⟨text, hread⟩ :=
      hc.exists_reads (Cst.childByField?_lt_size (ho.inside d hdeclares.1) hdeclares.2.2)
    have hkey := (ho.keys _ _).2 hk
    rw [(ho.keys _ _).2 (ho.kept_owner d), Option.some.injEq] at hkey
    exact ⟨⟨k, .declares, j⟩, ⟨⟨⟨d, text, o.owner d⟩,
      (mem_declarations_iff ho ht).2 ⟨⟨n, hdeclares, hread⟩, rfl⟩, j, (ho.keys _ _).2 hj,
      by rw [hkey]⟩, rfl, rfl⟩, rfl⟩

end Outline

namespace Cst

open Outline SyntaxTree

variable {c : Cst} {source path : String} {tables : Language.Tables} {config : Config}
  {number : UInt32} {t : SyntaxTree} {rows : List Nat} {k j : Nat}

theorem PreOrdered.related?_declares (hc : c.PreOrdered)
    (h : c.toSyntaxTree source tables config path number = .ok t)
    (hemits : config.emits .declares = true) (hk : k < t.size) :
    t.related? k .declares = .ok ((make source c tables config).declaredKeys k) := by
  have hnodup : ([] ++ (make source c tables config).declaredKeys k).Nodup :=
    ((ordered_make hc source tables config).pairwise_declaredKeys k).imp Nat.ne_of_lt
  rw [hc.related?_eq_emitted h hk (by decide), filter_emitted hemits, filter_links_declares]
  exact congrArg Except.ok (foldl_addTarget_of_nodup hnodup)

theorem WellFormed.relates_declares_iff (hc : c.WellFormed source)
    (h : c.toSyntaxTree source tables config path number = .ok t)
    (hemits : config.emits .declares = true) (hrows : c.kept config.includeAnonymous = rows) :
    t.Relates .declares k j ↔ ∃ r d n, rows[k]? = some r ∧ rows[j]? = some d ∧
      c.Declares tables rows d n ∧ c.Owns tables rows d r := by
  subst hrows
  have hmem := mem_declaredKeys_iff (j := j) (k := k) hc
    (ordered_make hc.preOrdered source tables config) (readsFrom_make hc tables config)
  constructor
  · intro hkj
    have hk := lt_size_of_relates hkj
    exact hmem.1 ((relates_iff (hc.preOrdered.related?_declares h hemits hk)).1 hkj)
  · intro hdeclared
    have hk : k < t.size := by
      obtain ⟨r, -, -, hr, -⟩ := hdeclared
      rw [hc.preOrdered.size_of_toSyntaxTree h]
      exact (List.getElem?_eq_some_iff.1 hr).1
    exact ⟨_, hc.preOrdered.related?_declares h hemits hk, hmem.2 hdeclared⟩

theorem WellFormed.exists_owner_above (hc : c.WellFormed source)
    (h : c.toSyntaxTree source tables config path number = .ok t)
    (hemits : config.emits .declares = true) (hrows : c.kept config.includeAnonymous = rows)
    (hroot : c.kind 0 ∉ tables.declarations) (hkj : t.Relates .declares k j) :
    ∃ r d, rows[k]? = some r ∧ rows[j]? = some d ∧ r ∈ c.ancestors d := by
  obtain ⟨r, d, n, hr, hd, ⟨hmem, hkind, -⟩, howns⟩ :=
    (hc.relates_declares_iff h hemits hrows).1 hkj
  subst hrows
  have hpos : 0 < d := Nat.pos_of_ne_zero fun hzero => hroot (hzero ▸ hkind)
  have hinside := (ordered_make hc.preOrdered source tables config).inside d hmem
  exact ⟨r, d, hr, hd, hc.preOrdered.owner_mem_ancestors howns hpos hinside⟩

/-- **Declarations form a forest.** In a syntax tree of a well-formed source, with a node for each
kept row in pre-order, what a node declares is listed in that order. A node declares another if and
only if that is of a named declaration which the row of the first owns; so each of these is declared
once. If the root is not a declaration itself, a node lies structurally above what it declares, and
the links are acyclic. -/
theorem declares_of_toSyntaxTree (hc : c.WellFormed source)
    (h : c.toSyntaxTree source tables config path number = .ok t)
    (hemits : config.emits .declares = true) (hrows : c.kept config.includeAnonymous = rows) :
    (∃ root : Fin t.size, root.val = 0 ∧ t.preorder? root = .ok (List.finRange t.size)) ∧
    t.size = rows.length ∧
    (∀ k < t.size, ∃ keys, t.related? k .declares = .ok keys ∧ keys.Pairwise (· < ·)) ∧
    (∀ k j, t.Relates .declares k j ↔ ∃ r d n, rows[k]? = some r ∧ rows[j]? = some d ∧
      c.Declares tables rows d n ∧ c.Owns tables rows d r) ∧
    (∀ j d n, rows[j]? = some d → c.Declares tables rows d n → ∃! k, t.Relates .declares k j) ∧
    (c.kind 0 ∉ tables.declarations →
      (∀ k j, t.Relates .declares k j → Relation.TransGen (t.Relates .structural) k j) ∧
      ∀ k, ¬ Relation.TransGen (t.Relates .declares) k k) := by
  have hiff := fun k j => hc.relates_declares_iff (k := k) (j := j) h hemits hrows
  have habove := fun hroot k j => hc.exists_owner_above (k := k) (j := j) h hemits hrows hroot
  subst hrows
  have ho := ordered_make hc.preOrdered source tables config
  have hsound := hc.preOrdered.sound_of_toSyntaxTree h
  refine ⟨⟨⟨0, hsound.nonempty⟩, rfl, hsound.preorder?_eq rfl⟩,
    hc.preOrdered.size_of_toSyntaxTree h, fun k hk => ?_, hiff, ?_, fun hroot => ?_⟩
  · exact ⟨_, hc.preOrdered.related?_declares h hemits hk, ho.pairwise_declaredKeys k⟩
  · intro j d n hj hdeclares
    have howner := ho.kept_owner d
    refine ⟨_, (hiff _ _).2 ⟨_, d, n, howner, hj, hdeclares, owns_iff.2 rfl⟩, fun k hk => ?_⟩
    obtain ⟨r, e, -, hr, he, -, howns⟩ := (hiff _ _).1 hk
    obtain rfl : d = e := Option.some.inj (hj.symm.trans he)
    rw [owns_iff.1 howns] at hr
    exact Option.some.inj (((ho.keys _ _).2 hr).symm.trans ((ho.keys _ _).2 howner))
  · refine ⟨fun k j hkj => ?_, fun k hcycle => ?_⟩
    · obtain ⟨r, d, hr, hd, hmem⟩ := habove hroot k j hkj
      refine hsound.transGen_structural ?_
      rw [ho.ancestorKeys_eq (hc.preOrdered.shown_of_toSyntaxTree h).parents hd]
      exact ho.mem_scopes_iff.2 ⟨r, hmem, hr⟩
    · have hlt : ∀ k j, t.Relates .declares k j → k < j := by
        intro k j hkj
        obtain ⟨r, d, hr, hd, hmem⟩ := habove hroot k j hkj
        exact (ho.row_lt_iff hr hd).1 (lt_of_mem_ancestors hmem)
      have hpath := Relation.TransGen.mono hlt _ _ hcycle
      rw [Relation.transGen_eq_self] at hpath
      exact Nat.lt_irrefl k hpath

theorem declares_of_toSyntaxTree_recursiveRows :
    recursiveRows.WellFormed "def f(): f()" ∧ Config.standard.emits .declares = true ∧ ∃ t,
      recursiveRows.toSyntaxTree "def f(): f()" Language.python.tables .standard "a.py" 0 = .ok t ∧
      recursiveRows.kept false = [0, 1, 3, 5, 6] ∧ t.Relates .declares 0 1 ∧
      Relation.TransGen (t.Relates .structural) 0 1 ∧ ¬ t.Relates .declares 1 4 := by
  obtain ⟨t, ht⟩ := wellFormed_recursiveRows.exists_toSyntaxTree Language.python.tables .standard
    "a.py" 0 fun h => absurd h (by decide)
  have hkept : recursiveRows.kept false = [0, 1, 3, 5, 6] := by decide +kernel
  obtain ⟨-, -, -, hiff, -, habove⟩ :=
    declares_of_toSyntaxTree wellFormed_recursiveRows ht rfl hkept
  have hdeclares : recursiveRows.Declares Language.python.tables [0, 1, 3, 5, 6] 1 3 :=
    ⟨by decide, by decide, by decide +kernel⟩
  have howner : recursiveRows.ownerRow Language.python.tables [0, 1, 3, 5, 6] 1 = 0 := by
    decide +kernel
  have hlink : t.Relates .declares 0 1 :=
    (hiff 0 1).2 ⟨0, 1, 3, rfl, rfl, hdeclares, owns_iff.2 howner.symm⟩
  refine ⟨wellFormed_recursiveRows, rfl, t, ht, hkept, hlink, (habove (by decide)).1 0 1 hlink, ?_⟩
  intro hfalse
  obtain ⟨r, d, n, -, hd, hcalls, -⟩ := (hiff 1 4).1 hfalse
  obtain rfl : 6 = d := Option.some.inj hd
  exact absurd hcalls.2.1 (by decide)

end Cst

end CodeGraph

import CodeGraph.Proofs.Cst.Targets
import CodeGraph.Proofs.Cst.Visibility

/-!
# Rows that mean nothing to a language

An outline may keep more rows than another. If the kinds of these are in no table of the language,
they change keys and nothing else: `rekey` leads from the key of a row in the one to its key in the
other, and the links of the larger outline are those of the smaller with other keys
(`ExtendedBy.links_eq`). A row in between hides nothing, since it owns no declaration
(`ExtendedBy.visible?_eq`).
-/

namespace CodeGraph

namespace Language.Tables

/-- The tables by kinds of nodes. -/
def listings (t : Tables) : List (List String) :=
  [t.simpleNames, t.references, t.declarations, t.callables, t.typed.map (·.1), t.typeNames,
    t.qualifiedTypes, t.calls.map (·.1)]

/-- The kinds that are listed in the tables. -/
def kinds (t : Tables) : List String := t.listings.flatten

variable {t : Tables} {kind : String}

theorem mem_kinds {listed : List String} (hl : listed ∈ t.listings)
    (h : listed.contains kind = true) : kind ∈ t.kinds :=
  List.mem_flatten.2 ⟨listed, hl, List.contains_iff_mem.1 h⟩

theorem mem_kinds_of_lookup {entries : List (String × String)} {field : String}
    (hl : entries.map (·.1) ∈ t.listings) (h : entries.lookup kind = some field) :
    kind ∈ t.kinds := by
  obtain ⟨before, after, rfl, -⟩ := List.lookup_eq_some_iff.1 h
  exact List.mem_flatten.2 ⟨_, hl, by simp⟩

end Language.Tables

/-- The declaration with another key for its owner. -/
def Declaration.rekey (f : Nat → Nat) (d : Declaration) : Declaration :=
  { d with owner := f d.owner }

namespace Outline

open Language.Tables

/-- The link with other keys for its ends. -/
def Link.rekey (f : Nat → Nat) (l : Link) : Link := ⟨f l.source, l.relation, f l.target⟩

theorem kind_mem_kinds {o : Outline} {d : Declaration} (hd : d ∈ o.declarations) :
    o.cst.kind d.row ∈ o.tables.kinds := by
  obtain ⟨i, -, hdeclaration⟩ := List.mem_filterMap.1 hd
  obtain ⟨hkind, -, rfl, -⟩ := declaration?_eq_some_iff.1 hdeclaration
  exact mem_kinds (by simp [listings]) (List.contains_iff_mem.2 hkind)

theorem Ordered.owner_lt {o : Outline} (ho : o.Ordered) {d : Declaration}
    (hd : d ∈ o.declarations) : d.owner < o.kept.length := by
  obtain ⟨i, -, hdeclaration⟩ := List.mem_filterMap.1 hd
  obtain ⟨-, -, -, howner⟩ := declaration?_eq_some_iff.1 hdeclaration
  exact (List.getElem?_eq_some_iff.1 (howner ▸ ho.kept_owner i)).1

/-- Whether another outline of the same source keeps the same rows, and some more whose kinds the
language does not list. -/
structure ExtendedBy (o o' : Outline) : Prop where
  ordered : o.Ordered
  ordered' : o'.Ordered
  source : o'.source = o.source
  cst : o'.cst = o.cst
  tables : o'.tables = o.tables
  kept : ∃ p, o.kept = o'.kept.filter p
  plain : ∀ i ∈ o'.kept, i ∉ o.kept → o.cst.kind i ∉ o.tables.kinds

/-- The key in another outline of the row with a key in this. -/
def rekey (o o' : Outline) (k : Nat) : Nat := (o.kept[k]?.bind o'.key?).getD 0

namespace ExtendedBy

variable {o o' : Outline} (h : o.ExtendedBy o') {i j k l : Nat}

include h

/-! ## Keys -/

theorem mem_kept (hi : i ∈ o.kept) : i ∈ o'.kept := by
  obtain ⟨p, hkept⟩ := h.kept
  rw [hkept] at hi
  exact (List.mem_filter.1 hi).1

theorem getElem?_rekey (hi : o.kept[k]? = some i) : o'.kept[o.rekey o' k]? = some i := by
  obtain ⟨place, hplace⟩ := List.getElem?_of_mem (h.mem_kept (List.mem_of_getElem? hi))
  rw [rekey, hi, Option.bind_some, (h.ordered'.keys i place).2 hplace]
  exact hplace

theorem rekey_lt_iff (hk : k < o.kept.length) (hl : l < o.kept.length) :
    o.rekey o' k < o.rekey o' l ↔ k < l := by
  have hi := List.getElem?_eq_getElem hk
  have hj := List.getElem?_eq_getElem hl
  rw [← h.ordered'.row_lt_iff (h.getElem?_rekey hi) (h.getElem?_rekey hj),
    h.ordered.row_lt_iff hi hj]

theorem rekey_inj (hk : k < o.kept.length) (hl : l < o.kept.length) :
    o.rekey o' k = o.rekey o' l ↔ k = l := by
  have hlt := h.rekey_lt_iff hk hl
  have hgt := h.rekey_lt_iff hl hk
  omega

theorem rekey_zero : o.rekey o' 0 = 0 := by
  rw [rekey, h.ordered.first, Option.bind_some, (h.ordered'.keys 0 0).2 h.ordered'.first]
  rfl

theorem mem_kept_of_kind (hkind : o.cst.kind i ∈ o.tables.kinds) : i ∈ o'.kept → i ∈ o.kept := by
  intro hi
  by_contra hnew
  exact h.plain i hi hnew hkind

theorem key?_eq (hi : i ∈ o'.kept → i ∈ o.kept) : o'.key? i = (o.key? i).map (o.rekey o') := by
  cases hkey : o.key? i with
  | some k =>
    have hrow := (h.ordered.keys i k).1 hkey
    exact (h.ordered'.keys i _).2 (h.getElem?_rekey hrow)
  | none =>
    cases hkey' : o'.key? i with
    | none => rfl
    | some k' =>
      have hold := hi (List.mem_of_getElem? ((h.ordered'.keys i k').1 hkey'))
      obtain ⟨k, hk⟩ := List.getElem?_of_mem hold
      rw [(h.ordered.keys i k).2 hk] at hkey
      cases hkey

theorem rekey_ne (hi : i ∉ o.kept) (hkey : o'.key? i = some j) (hk : k < o.kept.length) :
    o.rekey o' k ≠ j := by
  rintro rfl
  have hrow := h.getElem?_rekey (List.getElem?_eq_getElem hk)
  rw [(h.ordered'.keys i _).1 hkey, Option.some.injEq] at hrow
  exact hi (hrow ▸ List.getElem_mem hk)

theorem flatMap_kept {α β : Type} {F : Nat → List α} {F' : Nat → List β} {r : α → β}
    (hold : ∀ i ∈ o.kept, F' i = (F i).map r) (hnew : ∀ i ∈ o'.kept, i ∉ o.kept → F' i = []) :
    o'.kept.flatMap F' = (o.kept.flatMap F).map r := by
  obtain ⟨p, hkept⟩ := h.kept
  have hskip : ∀ i ∈ o'.kept, p i = false → F' i = [] := by
    intro i hi hp
    refine hnew i hi fun hmem => ?_
    rw [hkept, List.mem_filter, hp] at hmem
    cases hmem.2
  have hall : ∀ rows : List Nat, (∀ i ∈ rows, p i = false → F' i = []) →
      rows.flatMap F' = (rows.filter p).flatMap F' := by
    intro rows
    induction rows with
    | nil => exact fun _ => rfl
    | cons i rest ih =>
      intro hrows
      have hrest := ih fun j hj => hrows j (List.mem_cons_of_mem _ hj)
      by_cases hp : p i = true
      · rw [List.filter_cons_of_pos hp, List.flatMap_cons, List.flatMap_cons, hrest]
      · rw [List.filter_cons_of_neg hp, List.flatMap_cons, hrest,
          hrows i List.mem_cons_self (by simpa using hp), List.nil_append]
  rw [hall o'.kept hskip, ← hkept, List.map_flatMap]
  exact List.flatMap_congr hold

/-! ## Declarations -/

theorem text?_eq (i : Nat) : o'.text? i = o.text? i := by
  unfold text? text
  rw [h.source, h.cst]

/-- An owner is a declaration or the root, so that it is no new row. -/
theorem owner_eq (i : Nat) : o'.owner i = o.rekey o' (o.owner i) := by
  unfold owner
  rw [h.cst, h.tables]
  cases hfind : (o.cst.ancestors i).find? fun a => o.tables.isDeclaration (o.cst.kind a) with
  | none => exact h.rekey_zero.symm
  | some a =>
    have hdeclares : o.tables.isDeclaration (o.cst.kind a) = true := by
      simpa using List.find?_some hfind
    have hkind : o.cst.kind a ∈ o.tables.kinds := mem_kinds (by simp [listings]) hdeclares
    rw [Option.bind_some, Option.bind_some, h.key?_eq (h.mem_kept_of_kind hkind)]
    cases o.key? a with
    | none => exact h.rekey_zero.symm
    | some k => rfl

theorem declaration?_eq (i : Nat) :
    o'.declaration? i = (o.declaration? i).map (·.rekey (o.rekey o')) := by
  unfold declaration? nameRow?
  rw [h.cst, h.tables, h.owner_eq, funext h.text?_eq]
  split
  · cases (o.cst.childByField? i "name").bind o.text? <;> rfl
  · rfl

theorem declarations_eq : o'.declarations = o.declarations.map (·.rekey (o.rekey o')) := by
  unfold declarations
  rw [List.filterMap_eq_flatMap_toList, List.filterMap_eq_flatMap_toList]
  refine h.flatMap_kept ?_ ?_
  · intro i _
    rw [h.declaration?_eq]
    cases o.declaration? i <;> rfl
  · intro i hi hnew
    have hkind : o.tables.isDeclaration (o.cst.kind i) = false := by
      by_contra hdeclares
      exact h.plain i hi hnew (mem_kinds (by simp [listings]) (eq_true_of_ne_false hdeclares))
    unfold declaration?
    rw [h.cst, h.tables, hkind]
    rfl

theorem nameRows_eq : o'.nameRows = o.nameRows := by
  unfold nameRows nameRow?
  rw [h.declarations_eq, List.filterMap_map, h.cst]
  rfl

/-! ## Links -/

theorem link?_eq {relation : Relation} (hi : i ∈ o'.kept → i ∈ o.kept)
    (hj : j ∈ o'.kept → j ∈ o.kept) :
    o'.link? i relation j = (o.link? i relation j).map (.rekey (o.rekey o')) := by
  unfold link?
  rw [h.key?_eq hi, h.key?_eq hj]
  cases o.key? i with
  | none => rfl
  | some k => cases o.key? j <;> rfl

theorem declaresLinks_eq :
    o'.declaresLinks o'.declarations =
      (o.declaresLinks o.declarations).map (.rekey (o.rekey o')) := by
  unfold declaresLinks
  rw [h.declarations_eq, List.filterMap_map, List.map_filterMap]
  refine List.filterMap_congr fun d hd => ?_
  have hkey := h.key?_eq (h.mem_kept_of_kind (kind_mem_kinds hd))
  simp only [Function.comp_apply, Declaration.rekey, hkey]
  cases o.key? d.row <;> rfl

theorem typeNamesFrom_eq (turns : Nat) (stack : List Nat) :
    o'.typeNamesFrom turns stack = o.typeNamesFrom turns stack := by
  induction turns generalizing stack with
  | zero => rfl
  | succ turns ih =>
    cases stack with
    | nil => rfl
    | cons i rest =>
      rw [typeNamesFrom, typeNamesFrom, ih, ih, lastSegment?, lastSegment?, h.cst, h.tables]

theorem typeLinks_eq (hi : i ∈ o.kept) :
    o'.typeLinks i = (o.typeLinks i).map (.rekey (o.rekey o')) := by
  unfold typeLinks typeRow? typeNames
  rw [h.cst, h.tables]
  split
  · next t _ =>
    rw [h.typeNamesFrom_eq, List.map_filterMap]
    refine List.filterMap_congr fun j hj => ?_
    have hlisted := mem_kinds (t := o.tables) (by simp [listings])
      (isTypeName_of_mem_typeNamesFrom hj)
    exact h.link?_eq (fun _ => hi) (h.mem_kept_of_kind hlisted)
  · rfl

/-- The scope of a new row hides nothing, since no candidate is owned by it. -/
theorem visible?_eq {candidates : List Declaration}
    (howners : ∀ d ∈ candidates, d.owner < o.kept.length) (i : Nat) :
    o'.visible? (candidates.map (·.rekey (o.rekey o'))) i =
      (o.visible? candidates i).map (·.rekey (o.rekey o')) := by
  unfold visible? scopes
  rw [h.cst, Lists.findSome?_filterMap, Lists.findSome?_filterMap, List.map_findSome?]
  refine Lists.findSome?_congr fun a _ => ?_
  rw [Function.comp_apply]
  by_cases ha : a ∈ o.kept
  · rw [h.key?_eq fun _ => ha]
    cases hkey : o.key? a with
    | none => rfl
    | some k =>
      have hk : k < o.kept.length :=
        (List.getElem?_eq_some_iff.1 ((h.ordered.keys a k).1 hkey)).1
      rw [Option.map_some, Option.bind_some, Option.bind_some, List.find?_map]
      congr 1
      refine Lists.find?_congr fun d hd => ?_
      rw [Function.comp_apply, Declaration.rekey, Bool.eq_iff_iff, beq_iff_eq, beq_iff_eq,
        h.rekey_inj (howners d hd) hk]
  · have hnone : o.key? a = none := by
      cases hkey : o.key? a with
      | none => rfl
      | some k => exact absurd (List.mem_of_getElem? ((h.ordered.keys a k).1 hkey)) ha
    rw [hnone]
    cases hkey : o'.key? a with
    | none => rfl
    | some k =>
      rw [Option.bind_some, List.find?_map, Option.bind_none, Option.map_none,
        Option.map_eq_none_iff, List.find?_eq_none]
      intro d hd howner
      exact h.rekey_ne ha hkey (howners d hd) (beq_iff_eq.1 howner)

theorem visible?_declarations_eq {p : Declaration → Bool} (hp : ∀ d, p (d.rekey (o.rekey o')) = p d)
    (i : Nat) :
    o'.visible? (o'.declarations.filter p) i =
      (o.visible? (o.declarations.filter p) i).map (·.rekey (o.rekey o')) := by
  have hfilter : p ∘ (·.rekey (o.rekey o')) = p := funext hp
  rw [h.declarations_eq, List.filter_map, hfilter]
  exact h.visible?_eq (fun d hd => h.ordered.owner_lt (List.mem_filter.1 hd).1) i

theorem visible_link?_eq (hi : i ∈ o.kept) (relation : Relation) {p : Declaration → Bool}
    (hp : ∀ d, p (d.rekey (o.rekey o')) = p d) :
    ((o'.visible? (o'.declarations.filter p) i).bind fun d => o'.link? i relation d.row) =
      ((o.visible? (o.declarations.filter p) i).bind fun d => o.link? i relation d.row).map
        (.rekey (o.rekey o')) := by
  rw [h.visible?_declarations_eq hp]
  cases hvisible : o.visible? (o.declarations.filter p) i with
  | none => rfl
  | some d =>
    obtain ⟨hmem, -⟩ :=
      visible?_eq_some h.ordered (h.ordered.pairwise_declarations.filter p) hvisible
    have hlisted := kind_mem_kinds (List.mem_filter.1 hmem).1
    exact h.link?_eq (fun _ => hi) (h.mem_kept_of_kind hlisted)

theorem resolvesToLink?_eq (hi : i ∈ o.kept) :
    o'.resolvesToLink? o'.declarations o'.nameRows i =
      (o.resolvesToLink? o.declarations o.nameRows i).map (.rekey (o.rekey o')) := by
  unfold resolvesToLink?
  rw [h.cst, h.tables, h.nameRows_eq, h.text?_eq]
  split
  · cases o.text? i with
    | none => rfl
    | some name => exact h.visible_link?_eq hi .resolvesTo fun d => rfl
  · rfl

theorem calleeName?_eq (i : Nat) : o'.calleeName? i = o.calleeName? i := by
  unfold calleeName?
  rw [h.cst, h.tables, funext h.text?_eq]

theorem callsLink?_eq (hi : i ∈ o.kept) :
    o'.callsLink? o'.declarations i =
      (o.callsLink? o.declarations i).map (.rekey (o.rekey o')) := by
  unfold callsLink?
  rw [h.calleeName?_eq, h.cst, h.tables]
  cases o.calleeName? i with
  | none => rfl
  | some name => exact h.visible_link?_eq hi .calls fun d => rfl

theorem rowLinks_eq (hi : i ∈ o.kept) :
    o'.rowLinks o'.declarations o'.nameRows i =
      (o.rowLinks o.declarations o.nameRows i).map (.rekey (o.rekey o')) := by
  unfold rowLinks
  rw [h.typeLinks_eq hi, h.resolvesToLink?_eq hi, h.callsLink?_eq hi, List.map_append,
    List.map_append, Option.toList_map, Option.toList_map]

theorem rowLinks_eq_nil (hi : i ∈ o'.kept) (hnew : i ∉ o.kept) :
    o'.rowLinks o'.declarations o'.nameRows i = [] := by
  have hplain := h.plain i hi hnew
  have htype : o'.typeRow? i = none := by
    unfold typeRow?
    rw [h.cst, h.tables]
    cases hfield : o.tables.typeField? (o.cst.kind i) with
    | none => rfl
    | some field => exact absurd (mem_kinds_of_lookup (by simp [listings]) hfield) hplain
  have hreference : o.tables.isReference (o.cst.kind i) = false := by
    by_contra href
    exact hplain (mem_kinds (by simp [listings]) (eq_true_of_ne_false href))
  have hcallee : o'.calleeName? i = none := by
    unfold calleeName?
    rw [h.cst, h.tables]
    cases hfield : o.tables.calleeField? (o.cst.kind i) with
    | none => rfl
    | some field => exact absurd (mem_kinds_of_lookup (by simp [listings]) hfield) hplain
  unfold rowLinks typeLinks resolvesToLink? callsLink?
  rw [htype, hcallee, h.cst, h.tables, hreference]
  rfl

/-- **The links of a larger outline.** They are those of the smaller, from and to the same rows. -/
theorem links_eq : o'.links = o.links.map (.rekey (o.rekey o')) := by
  have hrows := h.flatMap_kept (fun i => h.rowLinks_eq) fun i => h.rowLinks_eq_nil
  change o'.declaresLinks o'.declarations ++
    o'.kept.flatMap (o'.rowLinks o'.declarations o'.nameRows) = List.map _ (_ ++ _)
  rw [h.declaresLinks_eq, hrows, List.map_append]
  rfl

end ExtendedBy

end Outline

end CodeGraph

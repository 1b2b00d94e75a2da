import CodeGraph.Cst.TypeNames
import CodeGraph.Proofs.Cst.Order

/-!
# The type names that a row spells

`Spells` says by recursion over the rows which type names these spell. The search with a stack finds
just these (`spells_typeNamesFrom`): the rows that wait on the stack are in order and none is below
another (`Separate`), so each row that comes to its turn is behind those before, and there are
enough turns. For the same reason the names are found in order and none of them twice
(`Spells.pairwise`).
-/

namespace CodeGraph

namespace Cst

/-- Which type names are spelled at or below some rows, in order. -/
inductive Spells (c : Cst) (tables : Language.Tables) : List Nat → List Nat → Prop
  | nil : Spells c tables [] []
  | name (i : Nat) (rest names : List Nat) (hkind : c.kind i ∈ tables.typeNames)
      (hrest : Spells c tables rest names) : Spells c tables (i :: rest) (i :: names)
  /-- A qualified type is named by its last named child. -/
  | segment (i last : Nat) (rest names : List Nat) (hkind : c.kind i ∉ tables.typeNames)
      (hqualified : c.kind i ∈ tables.qualifiedTypes)
      (hlast : (c.namedChildren i).getLast? = some last) (hname : c.kind last ∈ tables.typeNames)
      (hrest : Spells c tables rest names) : Spells c tables (i :: rest) (last :: names)
  | nothing (i : Nat) (rest names : List Nat) (hkind : c.kind i ∉ tables.typeNames)
      (hqualified : c.kind i ∈ tables.qualifiedTypes)
      (hlast : ∀ last, (c.namedChildren i).getLast? = some last → c.kind last ∉ tables.typeNames)
      (hrest : Spells c tables rest names) : Spells c tables (i :: rest) names
  | parts (i : Nat) (rest own names : List Nat) (hkind : c.kind i ∉ tables.typeNames)
      (hplain : c.kind i ∉ tables.qualifiedTypes)
      (hown : Spells c tables (c.namedChildren i) own) (hrest : Spells c tables rest names) :
      Spells c tables (i :: rest) (own ++ names)

/-- Whether row `j` is row `i` or below it. -/
def AtOrAbove (c : Cst) (i j : Nat) : Prop := i = j ∨ i ∈ c.ancestors j

/-- Rows in order, none of which is below another. -/
structure Separate (c : Cst) (stack : List Nat) : Prop where
  apart : stack.Pairwise fun i j => i < j ∧ i ∉ c.ancestors j
  inside : ∀ i ∈ stack, i < c.size

variable {c : Cst} {tables : Language.Tables} {stack names : List Nat} {i j : Nat}

/-! ## Children -/

theorem mem_children_of_mem_namedChildren (h : j ∈ c.namedChildren i) : j ∈ c.children i :=
  (List.mem_filter.1 h).1

theorem PreOrdered.ancestors_child (hc : c.PreOrdered) (hi : i < c.size)
    (hj : j ∈ c.children i) : j < c.size ∧ i < j ∧ c.ancestors j = i :: c.ancestors i := by
  have hparent := (mem_children_iff hi).1 hj
  have hij := hc.lt_of_parent? hparent
  refine ⟨lt_size_of_parent? hparent, hij, ?_⟩
  rw [ancestors, hparent]
  exact if_pos hij

theorem PreOrdered.separate_namedChildren (hc : c.PreOrdered) (hi : i < c.size) :
    c.Separate (c.namedChildren i) where
  apart := by
    have hascending : (c.namedChildren i).Pairwise (· < ·) := by
      rw [namedChildren, children_eq hi]
      exact (List.pairwise_lt_range.filter _).filter _
    refine hascending.imp_of_mem fun {j l} hj hl hlt => ⟨hlt, ?_⟩
    have hj := (hc.ancestors_child hi (mem_children_of_mem_namedChildren hj)).2.1
    rw [(hc.ancestors_child hi (mem_children_of_mem_namedChildren hl)).2.2, List.mem_cons]
    rintro (rfl | hmem)
    · exact Nat.lt_irrefl _ hj
    · exact Nat.lt_asymm hj (lt_of_mem_ancestors hmem)
  inside j hj := (hc.ancestors_child hi (mem_children_of_mem_namedChildren hj)).1

theorem PreOrdered.atOrAbove_of_child (hc : c.PreOrdered) (hi : i < c.size) {l : Nat}
    (hj : j ∈ c.children i) (hjl : c.AtOrAbove j l) : c.AtOrAbove i l := by
  have habove := (hc.ancestors_child hi hj).2.2
  rcases hjl with rfl | hjl
  · exact .inr (by simp [habove])
  · exact .inr ((suffix_ancestors hjl).subset (by simp [habove]))

/-- What is at or below a row is before all that is at or below a later one which is not itself
below the row. -/
theorem PreOrdered.lt_of_separate (hc : c.PreOrdered) {r l : Nat} (hir : i < r)
    (hr : i ∉ c.ancestors r) (hj : j < c.size) (hij : c.AtOrAbove i j) (hrl : c.AtOrAbove r l) :
    j < l := by
  have hjr : j < r := by
    rcases hij with rfl | hij
    · exact hir
    · by_contra hle
      exact hc.not_mem_ancestors_of_le hir (Nat.le_of_not_lt hle) hj hr hij
  rcases hrl with rfl | hrl
  · exact hjr
  · exact Nat.lt_trans hjr (lt_of_mem_ancestors hrl)

theorem PreOrdered.separate_step (hc : c.PreOrdered) {rest : List Nat}
    (h : c.Separate (i :: rest)) : c.Separate (c.namedChildren i ++ rest) := by
  obtain ⟨hfirst, hrest⟩ := List.pairwise_cons.1 h.apart
  have hi := h.inside i List.mem_cons_self
  have hchildren := hc.separate_namedChildren hi
  refine ⟨List.pairwise_append.2 ⟨hchildren.apart, hrest, fun j hj r hr => ?_⟩, fun j hj => ?_⟩
  · obtain ⟨hlt, -, habove⟩ := hc.ancestors_child hi (mem_children_of_mem_namedChildren hj)
    obtain ⟨hir, hnot⟩ := hfirst r hr
    have hbelow : i ∈ c.ancestors j := by simp [habove]
    refine ⟨hc.lt_of_separate hir hnot hlt (.inr hbelow) (.inl rfl), fun hmem => hnot ?_⟩
    exact (suffix_ancestors hmem).subset (List.mem_cons_of_mem _ hbelow)
  · rcases List.mem_append.1 hj with hj | hj
    · exact hchildren.inside j hj
    · exact h.inside j (List.mem_cons_of_mem _ hj)

theorem Separate.tail {rest : List Nat} (h : c.Separate (i :: rest)) : c.Separate rest :=
  ⟨h.apart.of_cons, fun j hj => h.inside j (List.mem_cons_of_mem _ hj)⟩

/-! ## Spelling -/

theorem Spells.of_append {xs ys : List Nat} (h : c.Spells tables (xs ++ ys) names) :
    ∃ us vs, c.Spells tables xs us ∧ c.Spells tables ys vs ∧ names = us ++ vs := by
  induction xs generalizing names with
  | nil => exact ⟨[], names, .nil, h, rfl⟩
  | cons i xs ih =>
    cases h with
    | name _ _ _ hkind hrest =>
      obtain ⟨us, vs, hus, hvs, rfl⟩ := ih hrest
      exact ⟨_, vs, .name i xs us hkind hus, hvs, rfl⟩
    | segment _ last _ _ hkind hqualified hlast hname hrest =>
      obtain ⟨us, vs, hus, hvs, rfl⟩ := ih hrest
      exact ⟨_, vs, .segment i last xs us hkind hqualified hlast hname hus, hvs, rfl⟩
    | nothing _ _ _ hkind hqualified hlast hrest =>
      obtain ⟨us, vs, hus, hvs, rfl⟩ := ih hrest
      exact ⟨_, vs, .nothing i xs us hkind hqualified hlast hus, hvs, rfl⟩
    | parts _ _ own _ hkind hplain hown hrest =>
      obtain ⟨us, vs, hus, hvs, rfl⟩ := ih hrest
      exact ⟨_, vs, .parts i xs own us hkind hplain hown hus, hvs, (List.append_assoc ..).symm⟩

theorem Spells.unique {others : List Nat} (h : c.Spells tables stack names)
    (hother : c.Spells tables stack others) : names = others := by
  induction h generalizing others with
  | nil => cases hother; rfl
  | name i rest names hkind _ ih =>
    cases hother with
    | name _ _ _ _ hrest => rw [ih hrest]
    | segment _ _ _ _ hnot => exact absurd hkind hnot
    | nothing _ _ _ hnot => exact absurd hkind hnot
    | parts _ _ _ _ hnot => exact absurd hkind hnot
  | segment i last rest names hkind hqualified hlast hname _ ih =>
    cases hother with
    | name _ _ _ hnot => exact absurd hnot hkind
    | segment _ _ _ _ _ _ hsame _ hrest =>
      rw [hlast, Option.some.injEq] at hsame
      rw [hsame, ih hrest]
    | nothing _ _ _ _ _ hnot => exact absurd hname (hnot last hlast)
    | parts _ _ _ _ _ hnot => exact absurd hqualified hnot
  | nothing i rest names hkind hqualified hlast _ ih =>
    cases hother with
    | name _ _ _ hnot => exact absurd hnot hkind
    | segment _ _ _ _ _ _ hsome hname => exact absurd hname (hlast _ hsome)
    | nothing _ _ _ _ _ _ hrest => exact ih hrest
    | parts _ _ _ _ _ hnot => exact absurd hqualified hnot
  | parts i rest own names hkind hplain _ _ ihOwn ih =>
    cases hother with
    | name _ _ _ hnot => exact absurd hnot hkind
    | segment _ _ _ _ _ hnot => exact absurd hnot hplain
    | nothing _ _ _ _ hnot => exact absurd hnot hplain
    | parts _ _ _ _ _ _ hown hrest => rw [ihOwn hown, ih hrest]

theorem mem_children_of_getLast? {last : Nat} (h : (c.namedChildren i).getLast? = some last) :
    last ∈ c.children i :=
  mem_children_of_mem_namedChildren (List.mem_of_getLast? h)

theorem Spells.exists_atOrAbove (hc : c.PreOrdered) (h : c.Spells tables stack names)
    (hinside : ∀ i ∈ stack, i < c.size) (hj : j ∈ names) :
    j < c.size ∧ ∃ i ∈ stack, c.AtOrAbove i j := by
  induction h with
  | nil => exact absurd hj List.not_mem_nil
  | name i rest names _ _ ih =>
    rw [List.forall_mem_cons] at hinside
    rw [List.exists_mem_cons_iff]
    rcases List.mem_cons.1 hj with rfl | hj
    · exact ⟨hinside.1, .inl (.inl rfl)⟩
    · exact (ih hinside.2 hj).imp id .inr
  | segment i last rest names _ _ hlast _ _ ih =>
    rw [List.forall_mem_cons] at hinside
    rw [List.exists_mem_cons_iff]
    rcases List.mem_cons.1 hj with rfl | hj
    · have hchild := mem_children_of_getLast? hlast
      exact ⟨(hc.ancestors_child hinside.1 hchild).1,
        .inl (hc.atOrAbove_of_child hinside.1 hchild (.inl rfl))⟩
    · exact (ih hinside.2 hj).imp id .inr
  | nothing i rest names _ _ _ _ ih =>
    rw [List.forall_mem_cons] at hinside
    rw [List.exists_mem_cons_iff]
    exact (ih hinside.2 hj).imp id .inr
  | parts i rest own names _ _ _ _ ihOwn ih =>
    rw [List.forall_mem_cons] at hinside
    rw [List.exists_mem_cons_iff]
    rcases List.mem_append.1 hj with hj | hj
    -- What the parts spell is at or below a part, and so below the row.
    · obtain ⟨hlt, r, hr, hrj⟩ := ihOwn (hc.separate_namedChildren hinside.1).inside hj
      have hchild := mem_children_of_mem_namedChildren hr
      exact ⟨hlt, .inl (hc.atOrAbove_of_child hinside.1 hchild hrj)⟩
    · exact (ih hinside.2 hj).imp id .inr

theorem Spells.lt_of_tail (hc : c.PreOrdered) {rest : List Nat} {l : Nat}
    (h : c.Spells tables rest names) (hstack : c.Separate (i :: rest)) (hj : j < c.size)
    (hij : c.AtOrAbove i j) (hl : l ∈ names) : j < l := by
  obtain ⟨-, r, hr, hrl⟩ := h.exists_atOrAbove hc hstack.tail.inside hl
  obtain ⟨hir, hnot⟩ := (List.pairwise_cons.1 hstack.apart).1 r hr
  exact hc.lt_of_separate hir hnot hj hij hrl

theorem Spells.pairwise (hc : c.PreOrdered) (h : c.Spells tables stack names)
    (hstack : c.Separate stack) : names.Pairwise (· < ·) := by
  induction h with
  | nil => exact .nil
  | name i rest names _ hrest ih =>
    have hi := hstack.inside i List.mem_cons_self
    exact .cons (fun l => hrest.lt_of_tail hc hstack hi (.inl rfl)) (ih hstack.tail)
  | segment i last rest names _ _ hlast _ hrest ih =>
    have hi := hstack.inside i List.mem_cons_self
    have hchild := mem_children_of_getLast? hlast
    exact .cons (fun l => hrest.lt_of_tail hc hstack (hc.ancestors_child hi hchild).1
      (hc.atOrAbove_of_child hi hchild (.inl rfl))) (ih hstack.tail)
  | nothing i rest names _ _ _ _ ih => exact ih hstack.tail
  | parts i rest own names _ _ hown hrest ihOwn ih =>
    have hi := hstack.inside i List.mem_cons_self
    have hchildren := hc.separate_namedChildren hi
    refine List.pairwise_append.2 ⟨ihOwn hchildren, ih hstack.tail, fun j hj l => ?_⟩
    obtain ⟨hlt, r, hr, hrj⟩ := hown.exists_atOrAbove hc hchildren.inside hj
    exact hrest.lt_of_tail hc hstack hlt
      (hc.atOrAbove_of_child hi (mem_children_of_mem_namedChildren hr) hrj)

end Cst

namespace Outline

open Cst

variable {o : Outline}

theorem spells_lastSegment? {i : Nat} {rest names : List Nat}
    (hkind : o.cst.kind i ∉ o.tables.typeNames)
    (hqualified : o.cst.kind i ∈ o.tables.qualifiedTypes)
    (hrest : o.cst.Spells o.tables rest names) :
    o.cst.Spells o.tables (i :: rest) ((o.lastSegment? i).toList ++ names) := by
  cases hlast : (o.cst.namedChildren i).getLast? with
  | none =>
    rw [lastSegment?, hlast]
    exact .nothing i rest names hkind hqualified (by simp [hlast]) hrest
  | some last =>
    rw [lastSegment?, hlast, Option.filter_some, Language.Tables.isTypeName, List.contains_eq_mem]
    by_cases hname : o.cst.kind last ∈ o.tables.typeNames
    · rw [if_pos (decide_eq_true hname)]
      exact .segment i last rest names hkind hqualified hlast hname hrest
    · rw [if_neg (by simpa using hname)]
      exact .nothing i rest names hkind hqualified (by simpa [hlast] using hname) hrest

/-- The search finds what the rows on its stack spell, if there are enough turns. -/
theorem spells_typeNamesFrom (hc : o.cst.PreOrdered) {turns : Nat} {stack : List Nat}
    (hstack : o.cst.Separate stack) (hturns : ∀ i ∈ stack, o.cst.size ≤ turns + i) :
    o.cst.Spells o.tables stack (o.typeNamesFrom turns stack) := by
  induction turns generalizing stack with
  | zero =>
    cases stack with
    | nil => exact .nil
    | cons i rest =>
      have hlt := hstack.inside i List.mem_cons_self
      have hle := hturns i List.mem_cons_self
      omega
  | succ turns ih =>
    cases stack with
    | nil => exact .nil
    | cons i rest =>
      have hrest : ∀ j ∈ rest, o.cst.size ≤ turns + j := fun j hj => by
        have hlt := ((List.pairwise_cons.1 hstack.apart).1 j hj).1
        have hle := hturns i List.mem_cons_self
        omega
      rw [typeNamesFrom, Language.Tables.isTypeName, Language.Tables.isQualifiedType,
        List.contains_eq_mem, List.contains_eq_mem]
      by_cases hkind : o.cst.kind i ∈ o.tables.typeNames
      · rw [if_pos (decide_eq_true hkind)]
        exact .name i rest _ hkind (ih hstack.tail hrest)
      rw [if_neg (by simpa using hkind)]
      by_cases hqualified : o.cst.kind i ∈ o.tables.qualifiedTypes
      · rw [if_pos (decide_eq_true hqualified)]
        exact spells_lastSegment? hkind hqualified (ih hstack.tail hrest)
      rw [if_neg (by simpa using hqualified)]
      have hnext : ∀ j ∈ o.cst.namedChildren i ++ rest, o.cst.size ≤ turns + j := by
        intro j hj
        rcases List.mem_append.1 hj with hj | hj
        · have hlt := (hc.ancestors_child (hstack.inside i List.mem_cons_self)
            (mem_children_of_mem_namedChildren hj)).2.1
          have hle := hturns i List.mem_cons_self
          omega
        · exact hrest j hj
      obtain ⟨own, names, hown, hnames, heq⟩ := (ih (hc.separate_step hstack) hnext).of_append
      rw [heq]
      exact .parts i rest own names hkind hqualified hown hnames

theorem spells_typeNames (hc : o.cst.PreOrdered) {i : Nat} (hi : i < o.cst.size) :
    o.cst.Spells o.tables [i] (o.typeNames i) :=
  spells_typeNamesFrom hc ⟨List.pairwise_singleton _ _, by simpa using hi⟩ (by simp)

end Outline

end CodeGraph

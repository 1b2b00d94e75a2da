import CodeGraph.Cst.Abstraction
import CodeGraph.Language.Detection
import CodeGraph.Proofs.Attempt
import CodeGraph.Proofs.Cst.Order

/-!
# The first syntax error

The search for an error takes rows from a stack and puts their children in their place. When it
comes to a row, what is on the stack are the rows that are pending there, so it meets all rows in
order and there are enough turns (`PreOrdered.firstErrorFrom?_pending`). What it finds is therefore
the first faulty row, wherever that is and whether it is kept or not. In strict mode a source is
refused for just that row, and otherwise strict mode changes nothing (`toSyntaxTree_strict`).
-/

namespace CodeGraph.Cst

open Ast

/-- Whether `r` is row `i`, and the first that holds or stands for an error. -/
structure FirstFault (c : Cst) (i : Nat) (r : Row) : Prop where
  row : c.rows[i]? = some r
  fault : r.error = true ∨ r.missing = true
  first : ∀ j < i, ∀ s, c.rows[j]? = some s → s.error = false ∧ s.missing = false

variable {c : Cst}

theorem Row.isFaulty_iff {r : Row} : r.isFaulty = true ↔ r.error = true ∨ r.missing = true := by
  rw [isFaulty, Bool.or_eq_true]

theorem Row.isFaulty_eq_false_iff {r : Row} :
    r.isFaulty = false ↔ r.error = false ∧ r.missing = false :=
  Bool.or_eq_false_iff

/-! ## The search -/

/-- From the rows that are pending at `k`, the search finds the first faulty row from `k` on. -/
theorem PreOrdered.firstErrorFrom?_pending (hc : c.PreOrdered) {k turns : Nat}
    (hk : k + turns = c.size) :
    c.firstErrorFrom? turns ((pending c.parent? c.size k).map Fin.val) =
      (c.rows.toList.drop k).find? Row.isFaulty := by
  -- The induction is on how many rows are left; the stack is always what is pending.
  induction turns generalizing k with
  | zero =>
    have hdrop : c.rows.toList.drop k = [] := List.drop_eq_nil_of_le (Nat.le_of_eq hk.symm)
    rw [hdrop]
    rfl
  | succ turns ih =>
    have hlt : k < c.size := by omega
    have hr : c.rows[k]? = some c.rows[k] := Array.getElem?_eq_getElem hlt
    have hdrop : c.rows.toList.drop k = c.rows[k] :: c.rows.toList.drop (k + 1) :=
      List.drop_eq_getElem_cons hlt
    rw [hc.preOrder.pending_eq_cons hlt, List.map_cons, firstErrorFrom?, hr, hdrop, List.find?_cons]
    cases hfaulty : c.rows[k].isFaulty with
    | true => rw [Option.filter_some, if_pos hfaulty]
    | false =>
      rw [Option.filter_some, if_neg (Bool.eq_false_iff.1 hfaulty)]
      rw [hc.children_append_pending hlt]
      exact ih (by omega)

theorem PreOrdered.firstError?_eq (hc : c.PreOrdered) :
    c.firstError? = c.rows.toList.find? Row.isFaulty := by
  have hzero : (⟨0, hc.nonempty⟩ : Fin c.size).val = 0 := rfl
  have hsearch := hc.firstErrorFrom?_pending (Nat.zero_add c.size)
  rwa [hc.preOrder.pending_zero hzero, List.drop_zero] at hsearch

theorem PreOrdered.firstError?_eq_some_iff (hc : c.PreOrdered) {r : Row} :
    c.firstError? = some r ↔ ∃ i, c.FirstFault i r := by
  rw [hc.firstError?_eq, List.find?_eq_some_iff_getElem]
  constructor
  · rintro ⟨hfault, i, hi, hrow, hfirst⟩
    refine ⟨i, ?_, Row.isFaulty_iff.1 hfault, fun j hj s hs => Row.isFaulty_eq_false_iff.1 ?_⟩
    · rw [← hrow]
      exact Array.getElem?_eq_getElem hi
    · obtain ⟨hlt, rfl⟩ := Array.getElem?_eq_some_iff.1 hs
      simpa using hfirst j hj
  · rintro ⟨i, hrow, hfault, hfirst⟩
    obtain ⟨hi, rfl⟩ := Array.getElem?_eq_some_iff.1 hrow
    refine ⟨Row.isFaulty_iff.2 hfault, i, hi, rfl, fun j hj => ?_⟩
    have hj' : j < c.rows.size := Nat.lt_trans hj hi
    have hnone := Row.isFaulty_eq_false_iff.2 (hfirst j hj _ (Array.getElem?_eq_getElem hj'))
    simpa using hnone

theorem PreOrdered.exists_firstFault (hc : c.PreOrdered) {i : Nat} {r : Row}
    (hr : c.rows[i]? = some r) (hfault : r.error = true ∨ r.missing = true) :
    ∃ j s, c.FirstFault j s := by
  cases hfirst : c.firstError? with
  | none =>
    rw [hc.firstError?_eq, List.find?_eq_none] at hfirst
    exact absurd (Row.isFaulty_iff.2 hfault)
      (hfirst r (Array.mem_toList_iff.2 (Array.mem_of_getElem? hr)))
  | some s =>
    obtain ⟨j, hj⟩ := hc.firstError?_eq_some_iff.1 hfirst
    exact ⟨j, s, hj⟩

theorem PreOrdered.firstError?_eq_none_iff (hc : c.PreOrdered) :
    c.firstError? = none ↔
      ∀ (i : Nat) (r : Row), c.rows[i]? = some r → r.error = false ∧ r.missing = false := by
  rw [hc.firstError?_eq, List.find?_eq_none]
  simp only [Bool.not_eq_true, Row.isFaulty_eq_false_iff, List.mem_iff_getElem?,
    Array.getElem?_toList]
  exact ⟨fun h i r hr => h r ⟨i, hr⟩, fun h r ⟨i, hr⟩ => h i r hr⟩

/-! ## Strict mode -/

section strict

variable (c : Cst) (source : String) (tables : Language.Tables) (config : Config) (path : String)
  (number : UInt32)

/-- The syntax tree of a source in which errors are passed over. -/
def lenientTree : Except SourceError SyntaxTree :=
  c.toSyntaxTree source tables { config with strict := false } path number

/-- The syntax tree of a source in which an error is a reason to refuse it. -/
def strictTree : Except SourceError SyntaxTree :=
  c.toSyntaxTree source tables { config with strict := true } path number

theorem lenientTree_ne (label : String) (line column : Nat) :
    c.lenientTree source tables config path number ≠
      .error (.syntaxError label line column) := by
  rw [lenientTree, toSyntaxTree]
  simp only [Bool.false_eq_true, if_false]
  intro h
  rw [Attempt.bind_eq, Attempt.bind_eq_error_iff] at h
  rcases h with hshape | ⟨_, -, h⟩
  · obtain ⟨defect, -, heq⟩ := Attempt.mapError_eq_error_iff.1 hshape
    cases heq
  · cases h

theorem strictTree_eq : c.strictTree source tables config path number =
    match c.firstError? with
    | some r => .error (.syntaxError path (r.startRow + 1) (r.startColumn + 1))
    | none => c.lenientTree source tables config path number := rfl

end strict

/-- **Strict mode.** Of a source with its rows in pre-order, strict mode refuses just those in which
a row holds or stands for an error. It reports the place at which the first such row begins, counted
from 1, under the path of the source. A source without such a row becomes what it becomes without
strict mode, and without strict mode no source is refused for its errors. -/
theorem toSyntaxTree_strict (hc : c.PreOrdered) (source : String) (tables : Language.Tables)
    (config : Config) (path : String) (number : UInt32) :
    let strict := c.toSyntaxTree source tables { config with strict := true } path number
    let lenient := c.toSyntaxTree source tables { config with strict := false } path number
    (∀ label line column, strict = .error (.syntaxError label line column) ↔
      ∃ i r, c.FirstFault i r ∧ label = path ∧ line = r.startRow + 1 ∧
        column = r.startColumn + 1) ∧
    ((∃ label line column, strict = .error (.syntaxError label line column)) ↔
      ∃ (i : Nat) (r : Row), c.rows[i]? = some r ∧ (r.error = true ∨ r.missing = true)) ∧
    ((∀ (i : Nat) (r : Row), c.rows[i]? = some r → r.error = false ∧ r.missing = false) →
      strict = lenient) ∧
    ∀ label line column, lenient ≠ .error (.syntaxError label line column) := by
  intro strict lenient
  have hstrict : strict = match c.firstError? with
      | some r => .error (.syntaxError path (r.startRow + 1) (r.startColumn + 1))
      | none => lenient := strictTree_eq c source tables config path number
  have hlenient := lenientTree_ne c source tables config path number
  have hplace : ∀ label line column, strict = .error (.syntaxError label line column) ↔
      ∃ i r, c.FirstFault i r ∧ label = path ∧ line = r.startRow + 1 ∧
        column = r.startColumn + 1 := by
    intro label line column
    constructor
    · intro h
      cases hfirst : c.firstError? with
      | none =>
        rw [hstrict, hfirst] at h
        exact absurd h (hlenient label line column)
      | some r =>
        rw [hstrict, hfirst] at h
        obtain ⟨i, hi⟩ := hc.firstError?_eq_some_iff.1 hfirst
        cases h
        exact ⟨i, r, hi, rfl, rfl, rfl⟩
    · rintro ⟨i, r, hi, rfl, rfl, rfl⟩
      rw [hstrict, hc.firstError?_eq_some_iff.2 ⟨i, hi⟩]
  refine ⟨hplace, ⟨?_, ?_⟩, fun hclean => ?_, hlenient⟩
  · rintro ⟨label, line, column, h⟩
    obtain ⟨i, r, hi, -⟩ := (hplace label line column).1 h
    exact ⟨i, r, hi.row, hi.fault⟩
  · rintro ⟨i, r, hr, hfault⟩
    obtain ⟨j, first, hfirst⟩ := hc.exists_firstFault hr hfault
    exact ⟨_, _, _, (hplace _ _ _).2 ⟨j, first, hfirst, rfl, rfl, rfl⟩⟩
  · rw [hstrict, hc.firstError?_eq_none_iff.2 hclean]

/-- The rows of a call whose closing parenthesis the parser made up, below its opening one, and of
an error on the next line. -/
def faultyRows : Cst := ofRows
  #[⟨none, "module", true, false, false, none, 0, 8, 0, 0, 1, 3⟩,
    ⟨some 0, "call", true, false, false, none, 0, 4, 0, 0, 0, 4⟩,
    ⟨some 1, "identifier", true, false, false, some "function", 0, 1, 0, 0, 0, 1⟩,
    ⟨some 1, "(", false, false, false, none, 1, 4, 0, 1, 0, 4⟩,
    ⟨some 3, "integer", true, false, false, none, 3, 4, 0, 3, 0, 4⟩,
    ⟨some 3, ")", false, true, false, none, 4, 4, 0, 4, 0, 4⟩,
    ⟨some 0, "ERROR", true, false, true, none, 5, 8, 1, 0, 1, 3⟩]

theorem preOrdered_faultyRows : faultyRows.PreOrdered := by decide +kernel

/-- The parenthesis comes first, though it is below a token and no node stands for either. -/
theorem toSyntaxTree_strict_faultyRows :
    faultyRows.PreOrdered ∧
    faultyRows.toSyntaxTree "f( 1\n???" Language.python.tables
      { Config.standard with strict := true } "a.py" 0 = .error (.syntaxError "a.py" 1 5) :=
  ⟨preOrdered_faultyRows, ((toSyntaxTree_strict preOrdered_faultyRows "f( 1\n???"
    Language.python.tables .standard "a.py" 0).1 "a.py" 1 5).2
    ⟨5, _, ⟨rfl, .inr rfl, by decide⟩, rfl, rfl, rfl⟩⟩

end CodeGraph.Cst

import CodeGraph.Proofs.Cst.Resolution

/-!
# Calls reach what they call

A call site calls by the name that its callee spells (`calleeName?_eq_some_iff`). In a syntax tree
it is linked to the nearest of the callable declarations with that name (`calls_of_toSyntaxTree`);
declarations that cannot be called are not among these, and so they hide none of them.
-/

namespace CodeGraph

namespace Cst

section specification

variable (c : Cst) (source : String) (tables : Language.Tables)

/-- Whether a callee spells a name: by itself, or by its first child in one of certain roles, tried
in order of preference, that is a simple name. -/
inductive CalleeName (callee : Nat) (name : String) : Prop
  | own (simple : c.kind callee ∈ tables.simpleNames) (reads : c.Reads source callee name)
  | child {before after : List String} {field : String} {j : Nat}
      (compound : c.kind callee ∉ tables.simpleNames)
      (fields : tables.calleeNameFields = before ++ field :: after)
      (found : c.childByField? callee field = some j) (simple : c.kind j ∈ tables.simpleNames)
      (first : ∀ preferred ∈ before, ∀ l, c.childByField? callee preferred = some l →
        c.kind l ∉ tables.simpleNames)
      (reads : c.Reads source j name)

/-- Whether row `i` is a call site whose callee spells `name`. -/
def CallsBy (i : Nat) (name : String) : Prop :=
  ∃ field callee, tables.calleeField? (c.kind i) = some field ∧
    c.childByField? i field = some callee ∧ c.CalleeName source tables callee name

end specification

variable {c : Cst} {source path name : String} {tables : Language.Tables}

theorem find?_children_eq_some_iff {callee j : Nat} {fields : List String} :
    (fields.filterMap (c.childByField? callee)).find? (tables.isSimpleName <| c.kind ·) = some j ↔
      ∃ before field after, fields = before ++ field :: after ∧
        c.childByField? callee field = some j ∧ c.kind j ∈ tables.simpleNames ∧
        ∀ preferred ∈ before, ∀ l, c.childByField? callee preferred = some l →
          c.kind l ∉ tables.simpleNames := by
  rw [List.find?_filterMap, Option.bind_eq_some_iff]
  simp only [List.find?_eq_some_iff_append, Language.Tables.isSimpleName, List.contains_eq_mem,
    Bool.not_eq_true', Option.any_eq_true, Option.any_eq_false, decide_eq_true_eq,
    decide_eq_false_iff_not]
  constructor
  · rintro ⟨field, ⟨⟨l, hl, hsimple⟩, before, after, hfields, hfirst⟩, hchild⟩
    obtain rfl : l = j := Option.some.inj (hl.symm.trans hchild)
    exact ⟨before, field, after, hfields, hchild, hsimple, hfirst⟩
  · rintro ⟨before, field, after, hfields, hchild, hsimple, hfirst⟩
    exact ⟨field, ⟨⟨j, hchild, hsimple⟩, before, after, hfields, hfirst⟩, hchild⟩

theorem calleeName_iff {callee : Nat} : c.CalleeName source tables callee name ↔
    if c.kind callee ∈ tables.simpleNames then c.Reads source callee name
    else ∃ j, (tables.calleeNameFields.filterMap (c.childByField? callee)).find?
      (tables.isSimpleName <| c.kind ·) = some j ∧ c.Reads source j name := by
  split
  · next hsimple =>
    constructor
    · intro hname
      cases hname with
      | own _ hread => exact hread
      | child hcompound => exact absurd hsimple hcompound
    · exact .own hsimple
  · next hcompound =>
    constructor
    · intro hname
      cases hname with
      | own hsimple => exact absurd hsimple hcompound
      | child _ hfields hfound hsimple hfirst hread =>
        exact ⟨_, find?_children_eq_some_iff.2 ⟨_, _, _, hfields, hfound, hsimple, hfirst⟩, hread⟩
    · rintro ⟨j, hj, hread⟩
      obtain ⟨before, field, after, hfields, hfound, hsimple, hfirst⟩ :=
        find?_children_eq_some_iff.1 hj
      exact .child hcompound hfields hfound hsimple hfirst hread

end Cst

namespace Outline

variable {o : Outline} {source : String} {i : Nat} {name : String}

/-- The name that a call site calls is the one that its callee spells. -/
theorem calleeName?_eq_some_iff (ht : o.ReadsFrom source) (hi : i < o.cst.size) :
    o.calleeName? i = some name ↔ o.cst.CallsBy source o.tables i name := by
  simp only [calleeName?, Option.bind_eq_bind, Option.bind_eq_some_iff, Cst.CallsBy]
  refine exists_congr fun field => ?_
  rw [← exists_and_left]
  refine exists_congr fun callee => and_congr_right fun _ => and_congr_right fun hcallee => ?_
  have hlt := Cst.childByField?_lt_size hi hcallee
  rw [Cst.calleeName_iff]
  by_cases hsimple : o.cst.kind callee ∈ o.tables.simpleNames
  · have htest : o.tables.isSimpleName (o.cst.kind callee) = true := List.contains_iff_mem.2 hsimple
    rw [if_pos htest, if_pos hsimple, ht callee hlt]
  · have htest : ¬ o.tables.isSimpleName (o.cst.kind callee) = true := fun h =>
      hsimple (List.contains_iff_mem.1 h)
    rw [if_neg htest, if_neg hsimple, Option.bind_eq_some_iff]
    refine exists_congr fun j => and_congr_right fun hj => ht j ?_ name
    obtain ⟨before, field, after, -, hfound, -⟩ := Cst.find?_children_eq_some_iff.1 hj
    exact Cst.childByField?_lt_size hlt hfound

theorem callsLink?_eq_some_iff_callsBy (ht : o.ReadsFrom source) (hi : i < o.cst.size) {l : Link} :
    o.callsLink? o.declarations i = some l ↔
      ∃ name d, o.cst.CallsBy source o.tables i name ∧
        o.visible? (o.declarations.filter fun d =>
          d.name == name && o.tables.isCallable (o.cst.kind d.row)) i = some d ∧
        o.link? i .calls d.row = some l := by
  rw [callsLink?_eq_some_iff]
  simp only [calleeName?_eq_some_iff ht hi]

theorem callable_visible_iff (ho : o.Ordered) (ht : o.ReadsFrom source) {r : Nat} :
    (o.cst.Visible source o.tables o.kept i name r ∧ o.cst.kind r ∈ o.tables.callables) ↔
      ∃ d ∈ o.declarations, (d.name == name && o.tables.isCallable (o.cst.kind d.row)) = true ∧
        d.row = r ∧ d.owner ∈ o.scopes i := by
  rw [visible_iff ho ht]
  simp only [Bool.and_eq_true, beq_iff_eq, Language.Tables.isCallable, List.contains_iff_mem]
  constructor
  · rintro ⟨⟨d, hd, hname, rfl, hscope⟩, hcallable⟩
    exact ⟨d, hd, ⟨hname, hcallable⟩, rfl, hscope⟩
  · rintro ⟨d, hd, ⟨hname, hcallable⟩, rfl, hscope⟩
    exact ⟨⟨d, hd, hname, rfl, hscope⟩, hcallable⟩

end Outline

namespace Cst

open Outline

variable {c : Cst} {source path : String} {tables : Language.Tables} {config : Config}
  {number : UInt32} {t : SyntaxTree} {rows : List Nat}

/-- **Calls reach the nearest callable declaration.** In a syntax tree of a well-formed source, with
a node for each kept row, a node calls something if and only if its row is a call site whose callee
spells a name with which a callable declaration is visible from it. Then it calls one node, that of
the nearest such declaration, however near other declarations with the name are. -/
theorem calls_of_toSyntaxTree (hc : c.WellFormed source)
    (h : c.toSyntaxTree source tables config path number = .ok t)
    (hemits : config.emits .calls = true) (hrows : c.kept config.includeAnonymous = rows) :
    t.size = rows.length ∧ ∀ k i, rows[k]? = some i → ∃ keys, t.related? k .calls = .ok keys ∧
      (keys ≠ [] ↔ ∃ name d, c.CallsBy source tables i name ∧
        c.Visible source tables rows i name d ∧ c.kind d ∈ tables.callables) ∧
      ∀ j ∈ keys, keys = [j] ∧ ∃ name d, c.CallsBy source tables i name ∧ rows[j]? = some d ∧
        c.Nearest tables rows
          (fun e => c.Visible source tables rows i name e ∧ c.kind e ∈ tables.callables) d := by
  subst hrows
  refine ⟨hc.preOrdered.size_of_toSyntaxTree h, fun k i hi => ?_⟩
  have ho := ordered_make hc.preOrdered source tables config
  have ht := readsFrom_make hc tables config
  have hsize : i < c.size := ho.inside i (List.mem_of_getElem? hi)
  refine ⟨_, hc.preOrdered.related?_calls h hi hemits, ?_⟩
  exact targets_of_uses ho ht hi (fun l => callsLink?_eq_some_iff_callsBy ht hsize)
    fun name r => callable_visible_iff ho ht

theorem calls_of_toSyntaxTree_recursiveRows :
    recursiveRows.WellFormed "def f(): f()" ∧ Config.standard.emits .calls = true ∧ ∃ t,
      recursiveRows.toSyntaxTree "def f(): f()" Language.python.tables .standard "a.py" 0 = .ok t ∧
      recursiveRows.kept false = [0, 1, 3, 5, 6] ∧ t.related? 3 .calls = .ok [1] := by
  obtain ⟨t, ht⟩ := wellFormed_recursiveRows.exists_toSyntaxTree Language.python.tables .standard
    "a.py" 0 fun h => absurd h (by decide)
  have hkept : recursiveRows.kept false = [0, 1, 3, 5, 6] := by decide +kernel
  obtain ⟨-, hnodes⟩ := calls_of_toSyntaxTree wellFormed_recursiveRows ht rfl hkept
  obtain ⟨keys, hkeys, hiff, hall⟩ := hnodes 3 5 rfl
  have hcalls : recursiveRows.CallsBy "def f(): f()" Language.python.tables 5 "f" :=
    ⟨"function", 6, rfl, by decide +kernel, .own (by decide) reads_recursiveRows⟩
  have hvisible : recursiveRows.Visible "def f(): f()" Language.python.tables [0, 1, 3, 5, 6] 5 "f"
      1 := ⟨visible_recursiveRows.named, by decide +kernel⟩
  have hne : keys ≠ [] := hiff.2 ⟨"f", 1, hcalls, hvisible, by decide⟩
  obtain ⟨j, hj⟩ := List.exists_mem_of_ne_nil keys hne
  obtain ⟨rfl, name, d, -, hd, hnearest⟩ := hall j hj
  have hfunction : ∀ j < 5, ∀ d ∈ [0, 1, 3, 5, 6], [0, 1, 3, 5, 6][j]? = some d →
      recursiveRows.kind d ∈ Language.python.tables.callables → j = 1 := by decide +kernel
  obtain rfl : j = 1 := hfunction j (List.getElem?_eq_some_iff.1 hd).1 d (List.mem_of_getElem? hd)
    hd hnearest.isCandidate.2
  exact ⟨wellFormed_recursiveRows, rfl, t, ht, hkept, hkeys⟩

end Cst

end CodeGraph

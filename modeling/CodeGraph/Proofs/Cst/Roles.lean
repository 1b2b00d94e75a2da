import CodeGraph.Proofs.Cst.Embedding

/-!
# The first child in a role

A row's child in a role is the first of its children that has it, and so is that of a node. Where
nothing is below the rows that may be left out (`Cst.BareTokens`), the parent of a kept row is kept,
and so the children of a node are the kept children of its row (`Ordered.parentKey?_eq_some_iff`).
Then both searches find the same child, if the one that the rows have is kept
(`childByField?_of_toSyntaxTree`).
-/

namespace CodeGraph

/-- Whether `j` is the first with `k` as its parent that has a role. -/
structure FirstInRole (parent : Nat → Option Nat) (role : Nat → Option String) (k : Nat)
    (field : String) (j : Nat) : Prop where
  below : parent j = some k
  inRole : role j = some field
  first : ∀ l < j, parent l = some k → role l ≠ some field

theorem find?_role_eq_some_iff {parent : Nat → Option Nat} {role : Nat → Option String}
    {size k j : Nat} {field : String} (hsize : ∀ i p, parent i = some p → i < size) :
    ((List.range size).filter (parent · == some k)).find? (role · == some field) = some j ↔
      FirstInRole parent role k field j := by
  rw [Lists.find?_filter_range_eq_some_iff]
  simp only [beq_iff_eq, beq_eq_false_iff_ne]
  constructor
  · rintro ⟨-, hbelow, hrole, hfirst⟩
    exact ⟨hbelow, hrole, hfirst⟩
  · rintro ⟨hbelow, hrole, hfirst⟩
    exact ⟨hsize j k hbelow, hbelow, hrole, hfirst⟩

namespace SyntaxTree

open Attempt

/-- The role of the node of a key. -/
def role? (t : SyntaxTree) (k : Nat) : Option String := t.nodes[k]?.bind (·.data.field)

theorem Sound.childByField?_eq_ok_iff {t : SyntaxTree} (h : t.Sound) {k j : Nat} {field : String}
    (hk : k < t.size) :
    t.childByField? k field = .ok (some j) ↔ FirstInRole t.parentKey? t.role? k field j := by
  rw [childByField?, h.children?_eq hk, bind_eq, ok_bind, Except.ok.injEq]
  exact find?_role_eq_some_iff fun i p => lt_size_of_parentKey?

end SyntaxTree

namespace Cst

variable {c : Cst} {i p : Nat}

/-- The role of a row. -/
def role? (c : Cst) (i : Nat) : Option String := c.rows[i]?.bind (·.field)

/-- Whether nothing is below the tokens of the grammar and the rows that a parser made up. -/
def BareTokens (c : Cst) : Prop :=
  ∀ (i : Nat) (r : Row), c.rows[i]? = some r → r.named = false ∨ r.missing = true →
    c.children i = []

theorem childByField?_eq_some_iff {field : String} {j : Nat} (hi : i < c.size) :
    c.childByField? i field = some j ↔ FirstInRole c.parent? c.role? i field j := by
  rw [childByField?, children_eq hi]
  exact find?_role_eq_some_iff fun j p => lt_size_of_parent?

theorem BareTokens.mem_kept (h : c.BareTokens) (hc : c.PreOrdered) (hp : c.parent? i = some p)
    (includeAnonymous : Bool) : p ∈ c.kept includeAnonymous := by
  have hlt : p < c.size := Nat.lt_trans (hc.lt_of_parent? hp) (lt_size_of_parent? hp)
  have hr : c.rows[p]? = some c.rows[p] := Array.getElem?_eq_getElem hlt
  have hplain : ¬ (c.rows[p].named = false ∨ c.rows[p].missing = true) := by
    intro hbare
    have hmem := (mem_children_iff hlt).2 hp
    rw [h p _ hr hbare] at hmem
    cases hmem
  rw [not_or, Bool.not_eq_false, Bool.not_eq_true] at hplain
  exact Outline.mem_kept_iff.2 ⟨hlt, .inr ⟨_, hr, by simp [Row.keep, hplain]⟩⟩

end Cst

namespace Outline

variable {o : Outline} {k j i q : Nat}

theorem Ordered.parentKey?_eq_some_iff (ho : o.Ordered)
    (hkept : ∀ i p, o.cst.parent? i = some p → p ∈ o.kept) (hi : o.kept[k]? = some i)
    (hq : o.kept[j]? = some q) : o.parentKey? k = some j ↔ o.cst.parent? i = some q := by
  rw [parentKey?, hi, Option.bind_some, scopes, Cst.ancestors]
  cases hp : o.cst.parent? i with
  | none => simp
  | some p =>
    obtain ⟨l, hl⟩ := List.getElem?_of_mem (hkept i p hp)
    have hlt := ho.rows.lt_of_parent? hp
    simp only [if_pos hlt, List.filterMap_cons_some ((ho.keys p l).2 hl), List.head?_cons,
      Option.some.injEq]
    constructor
    · rintro rfl
      exact Option.some.inj (hl.symm.trans hq)
    · rintro rfl
      exact Option.some.inj (((ho.keys p l).2 hl).symm.trans ((ho.keys p j).2 hq))

end Outline

namespace Cst

open Outline SyntaxTree

variable {c : Cst} {source path : String} {tables : Language.Tables} {config : Config}
  {number : UInt32} {t : SyntaxTree}

theorem WellFormed.role?_of_toSyntaxTree (hc : c.WellFormed source)
    (h : c.toSyntaxTree source tables config path number = .ok t) {k i p : Nat}
    (hi : (c.kept config.includeAnonymous)[k]? = some i) (hp : c.parent? i = some p) :
    t.role? k = c.role? i := by
  have hpos : i ≠ 0 := Nat.ne_of_gt (Nat.zero_lt_of_lt (hc.preOrdered.lt_of_parent? hp))
  have hshown := hc.preOrdered.shown_of_toSyntaxTree h
  obtain ⟨r, x, hr, hx, -, -, -, hfield, -⟩ := hc.exists_node hshown.data hshown.size hi
  rw [SyntaxTree.role?, Cst.role?, hr, hx, Option.bind_some, Option.bind_some, hfield, if_neg hpos]

theorem WellFormed.childByField?_of_toSyntaxTree (hc : c.WellFormed source) (hbare : c.BareTokens)
    (h : c.toSyntaxTree source tables config path number = .ok t) {field : String} {d n k j : Nat}
    (hd : (c.kept config.includeAnonymous)[k]? = some d)
    (hn : (c.kept config.includeAnonymous)[j]? = some n)
    (hchild : c.childByField? d field = some n) :
    t.childByField? k field = .ok (some j) := by
  have ho := ordered_make hc.preOrdered source tables config
  have hshown := hc.preOrdered.shown_of_toSyntaxTree h
  have hsize : t.size = (c.kept config.includeAnonymous).length := hshown.size
  have hk : k < t.size := hsize ▸ (List.getElem?_eq_some_iff.1 hd).1
  have hfirst : FirstInRole c.parent? c.role? d field n :=
    (childByField?_eq_some_iff (ho.inside d (List.mem_of_getElem? hd))).1 hchild
  have hbelow : ∀ {l m}, (c.kept config.includeAnonymous)[l]? = some m →
      (t.parentKey? l = some k ↔ c.parent? m = some d) := by
    intro l m hm
    rw [hshown.parents]
    exact ho.parentKey?_eq_some_iff (fun i p hp => hbare.mem_kept hc.preOrdered hp _) hm hd
  refine ((hc.preOrdered.sound_of_toSyntaxTree h).childByField?_eq_ok_iff hk).2 ⟨?_, ?_, ?_⟩
  · exact (hbelow hn).2 hfirst.below
  · rw [hc.role?_of_toSyntaxTree h hn hfirst.below, hfirst.inRole]
  · -- Keys are in the order of their rows, so a key before that of the child is a row before it.
    intro l hl hparent
    have hm := List.getElem?_eq_getElem (hsize ▸ lt_size_of_parentKey? hparent)
    have hm' := (hbelow hm).1 hparent
    rw [hc.role?_of_toSyntaxTree h hm hm']
    exact hfirst.first _ ((ho.row_lt_iff hm hn).2 hl) hm'

end Cst

end CodeGraph

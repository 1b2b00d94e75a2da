import CodeGraph.Cst.Scope
import CodeGraph.Language.Detection
import CodeGraph.Proofs.Cst.WellFormed

/-!
# The declaration that a name means

A named declaration is visible below its owner, and of those that are visible from a row the one
with the deepest owner is meant, which is the first in pre-order of those with that owner. This is
what a search from the nearest scope outwards finds (`nearest_of_visible?`), if there is something
to find (`exists_visible?_iff`).
-/

namespace CodeGraph

namespace Cst

section specification

variable (c : Cst) (source : String) (tables : Language.Tables) (rows : List Nat)

/-- Whether row `d` is one of `rows` and a declaration, and `n` its child in the role `name`. -/
def Declares (d n : Nat) : Prop :=
  d ∈ rows ∧ c.kind d ∈ tables.declarations ∧ c.childByField? d "name" = some n

/-- The owner of a row: the nearest declaration above it if that is one of `rows`, else the root. -/
def ownerRow (i : Nat) : Nat :=
  (((c.ancestors i).find? (c.kind · ∈ tables.declarations)).filter (· ∈ rows)).getD 0

/-- Whether a declaration called `name` is visible from row `i`: its owner is above that. -/
structure Visible (i : Nat) (name : String) (d : Nat) : Prop where
  named : ∃ n, c.Declares tables rows d n ∧ c.Reads source n name
  below : c.ownerRow tables rows d ∈ c.ancestors i

/-- How many rows are above a row. -/
def depth (i : Nat) : Nat := (c.ancestors i).length

/-- Whether `d` is the candidate with the deepest owner, and the first of those with that owner. -/
structure Nearest (candidate : Nat → Prop) (d : Nat) : Prop where
  isCandidate : candidate d
  deepest : ∀ e, candidate e →
    c.depth (c.ownerRow tables rows e) < c.depth (c.ownerRow tables rows d) ∨
      (c.ownerRow tables rows e = c.ownerRow tables rows d ∧ d ≤ e)

end specification

variable {c : Cst}

theorem mem_ancestors_of_lt {i p q : Nat} (hp : p ∈ c.ancestors i) (hq : q ∈ c.ancestors i)
    (hlt : p < q) : p ∈ c.ancestors q := by
  obtain ⟨nearer, hsplit⟩ := suffix_ancestors hq
  have hpairwise := c.pairwise_ancestors i
  rw [← hsplit, List.pairwise_append] at hpairwise
  rw [← hsplit] at hp
  rcases List.mem_append.1 hp with hnearer | hrest
  · have hgt := hpairwise.2.2 p hnearer q List.mem_cons_self
    omega
  · rcases List.mem_cons.1 hrest with heq | habove
    · omega
    · exact habove

theorem depth_lt_of_mem_ancestors {p q : Nat} (h : p ∈ c.ancestors q) : c.depth p < c.depth q :=
  (suffix_ancestors h).length_le

theorem childByField?_lt_size {i j : Nat} {field : String} (hi : i < c.size)
    (h : c.childByField? i field = some j) : j < c.size := by
  exact lt_size_of_parent? ((mem_children_iff hi).1 (List.mem_of_find?_eq_some h))

theorem visible_recursiveRows : recursiveRows.Visible "def f(): f()" Language.python.tables
    [0, 1, 3, 5, 6] 6 "f" 1 where
  named := ⟨3, ⟨by decide, by decide, by decide +kernel⟩,
    _, rfl, "def ", "(): f()", by decide, by decide, by decide⟩
  below := by decide +kernel

end Cst

namespace Outline

variable {o : Outline} {source : String} {i : Nat}

/-- Whether the texts of an outline are what its rows read. -/
def ReadsFrom (o : Outline) (source : String) : Prop :=
  ∀ i < o.cst.size, ∀ text, o.text? i = some text ↔ o.cst.Reads source i text

theorem readsFrom_make {c : Cst} (hc : c.WellFormed source) (tables : Language.Tables)
    (config : Config) : (make source c tables config).ReadsFrom source := fun _ hi _ =>
  text?_eq_some_iff hc hi

/-! ## Owners -/

theorem Ordered.kept_owner (ho : o.Ordered) (i : Nat) :
    o.kept[o.owner i]? = some (o.cst.ownerRow o.tables o.kept i) := by
  have htest : (fun a => o.tables.isDeclaration (o.cst.kind a)) =
      fun a => decide (o.cst.kind a ∈ o.tables.declarations) := funext fun a => by
    rw [Language.Tables.isDeclaration, List.contains_eq_mem]
  rw [owner, Cst.ownerRow, htest]
  cases (o.cst.ancestors i).find? fun a => decide (o.cst.kind a ∈ o.tables.declarations) with
  | none => exact ho.first
  | some a =>
    rw [Option.bind_some, Option.filter_some]
    cases hkey : o.key? a with
    | none =>
      have hdropped : a ∉ o.kept := by
        intro hmem
        obtain ⟨k, hk⟩ := List.getElem?_of_mem hmem
        rw [(ho.keys a k).2 hk] at hkey
        cases hkey
      simpa [hdropped] using ho.first
    | some k =>
      have hk := (ho.keys a k).1 hkey
      have hmem : a ∈ o.kept := List.mem_of_getElem? hk
      simpa [hmem] using hk

theorem Ordered.owner_mem_scopes_iff (ho : o.Ordered) {d : Nat} :
    o.owner d ∈ o.scopes i ↔ o.cst.ownerRow o.tables o.kept d ∈ o.cst.ancestors i := by
  rw [ho.mem_scopes_iff, ho.kept_owner]
  constructor
  · rintro ⟨r, hr, heq⟩
    exact Option.some.inj heq ▸ hr
  · intro h
    exact ⟨_, h, rfl⟩

theorem Ordered.depth_ownerRow_lt (ho : o.Ordered) {d e : Nat} (hd : o.owner d ∈ o.scopes i)
    (he : o.owner e ∈ o.scopes i) (hlt : o.owner e < o.owner d) :
    o.cst.depth (o.cst.ownerRow o.tables o.kept e) <
      o.cst.depth (o.cst.ownerRow o.tables o.kept d) := by
  have hrows := (ho.row_lt_iff (ho.kept_owner e) (ho.kept_owner d)).2 hlt
  exact Cst.depth_lt_of_mem_ancestors (Cst.mem_ancestors_of_lt (ho.owner_mem_scopes_iff.1 he)
    (ho.owner_mem_scopes_iff.1 hd) hrows)

/-! ## Declarations -/

theorem declaration?_eq_some_iff {d : Declaration} : o.declaration? i = some d ↔
    o.cst.kind i ∈ o.tables.declarations ∧ (∃ n, o.cst.childByField? i "name" = some n ∧
      o.text? n = some d.name) ∧ d.row = i ∧ d.owner = o.owner i := by
  obtain ⟨row, name, owner⟩ := d
  rw [declaration?, Language.Tables.isDeclaration, List.contains_eq_mem]
  by_cases hkind : o.cst.kind i ∈ o.tables.declarations
  · simp only [hkind, decide_true, if_true, Option.map_eq_some_iff, Option.bind_eq_some_iff,
      nameRow?, Declaration.mk.injEq, true_and]
    constructor
    · rintro ⟨text, hname, rfl, rfl, rfl⟩
      exact ⟨hname, rfl, rfl⟩
    · rintro ⟨hname, rfl, rfl⟩
      exact ⟨name, hname, rfl, rfl, rfl⟩
  · simp [hkind]

theorem mem_declarations_iff (ho : o.Ordered) (ht : o.ReadsFrom source) {d : Declaration} :
    d ∈ o.declarations ↔ (∃ n, o.cst.Declares o.tables o.kept d.row n ∧
      o.cst.Reads source n d.name) ∧ d.owner = o.owner d.row := by
  rw [declarations, List.mem_filterMap]
  constructor
  · rintro ⟨i, hi, h⟩
    obtain ⟨hkind, ⟨n, hn, htext⟩, rfl, howner⟩ := declaration?_eq_some_iff.1 h
    have hlt := Cst.childByField?_lt_size (ho.inside _ hi) hn
    exact ⟨⟨n, ⟨hi, hkind, hn⟩, (ht n hlt _).1 htext⟩, howner⟩
  · rintro ⟨⟨n, ⟨hi, hkind, hn⟩, hread⟩, howner⟩
    have htext := (ht n (Cst.childByField?_lt_size (ho.inside _ hi) hn) _).2 hread
    exact ⟨d.row, hi, declaration?_eq_some_iff.2 ⟨hkind, ⟨n, hn, htext⟩, rfl, howner⟩⟩

theorem Ordered.pairwise_declarations (ho : o.Ordered) :
    o.declarations.Pairwise fun d e => d.row < e.row := by
  refine ho.ascending.filterMap _ fun i j hij d hd e he => ?_
  rw [(declaration?_eq_some_iff.1 hd).2.2.1, (declaration?_eq_some_iff.1 he).2.2.1]
  exact hij

theorem visible_iff (ho : o.Ordered) (ht : o.ReadsFrom source) {name : String} {r : Nat} :
    o.cst.Visible source o.tables o.kept i name r ↔
      ∃ d ∈ o.declarations, d.name = name ∧ d.row = r ∧ d.owner ∈ o.scopes i := by
  constructor
  · rintro ⟨hnamed, hbelow⟩
    exact ⟨⟨r, name, o.owner r⟩, (mem_declarations_iff ho ht).2 ⟨hnamed, rfl⟩, rfl, rfl,
      ho.owner_mem_scopes_iff.2 hbelow⟩
  · rintro ⟨d, hd, rfl, rfl, hscope⟩
    obtain ⟨hnamed, howner⟩ := (mem_declarations_iff ho ht).1 hd
    exact ⟨hnamed, ho.owner_mem_scopes_iff.1 (howner ▸ hscope)⟩

/-! ## The search -/

variable {candidates : List Declaration}

theorem visible?_eq_none_iff :
    o.visible? candidates i = none ↔ ∀ d ∈ candidates, d.owner ∉ o.scopes i := by
  simp only [visible?, List.findSome?_eq_none_iff, List.find?_eq_none, beq_iff_eq]
  constructor
  · intro h d hd hscope
    exact h d.owner hscope d hd rfl
  · intro h scope hscope d hd heq
    exact h d hd (heq ▸ hscope)

theorem visible?_eq_some (ho : o.Ordered) (hsorted : candidates.Pairwise fun d e => d.row < e.row)
    {d : Declaration} (h : o.visible? candidates i = some d) :
    d ∈ candidates ∧ d.owner ∈ o.scopes i ∧ ∀ e ∈ candidates, e.owner ∈ o.scopes i →
      e.owner < d.owner ∨ (e.owner = d.owner ∧ d.row ≤ e.row) := by
  rw [visible?, List.findSome?_eq_some_iff] at h
  obtain ⟨nearer, scope, outer, hscopes, hfind, hnone⟩ := h
  rw [List.find?_eq_some_iff_append] at hfind
  obtain ⟨hown, earlier, later, rfl, hearlier⟩ := hfind
  obtain rfl : d.owner = scope := beq_iff_eq.1 hown
  refine ⟨by simp, by simp [hscopes], fun e he hscope => ?_⟩
  -- No candidate is owned by a nearer scope, and none before `d` by that of `d`.
  have hdescending := ho.pairwise_scopes i
  rw [hscopes] at hscope hdescending
  rw [List.pairwise_append, List.pairwise_cons] at hdescending hsorted
  rcases List.mem_append.1 hscope with hmem | hmem
  · have hne := List.find?_eq_none.1 (hnone e.owner hmem) e he
    exact absurd (beq_self_eq_true e.owner) hne
  · rcases List.mem_cons.1 hmem with heq | hmem
    · refine .inr ⟨heq, ?_⟩
      rcases List.mem_append.1 he with hbefore | hafter
      · have hne := hearlier e hbefore
        simp [heq] at hne
      · rcases List.mem_cons.1 hafter with rfl | hafter
        · exact Nat.le_refl _
        · exact Nat.le_of_lt (hsorted.2.1.1 e hafter)
    · exact .inl (hdescending.2.1.1 e.owner hmem)

variable {p : Declaration → Bool} {candidate : Nat → Prop}

theorem exists_visible?_iff (hp : ∀ r, candidate r ↔ ∃ d ∈ o.declarations, p d = true ∧ d.row = r ∧
    d.owner ∈ o.scopes i) :
    (∃ d, o.visible? (o.declarations.filter p) i = some d) ↔ ∃ r, candidate r := by
  rw [← Option.ne_none_iff_exists', ne_eq, visible?_eq_none_iff]
  simp only [hp, List.mem_filter]
  constructor
  · intro h
    by_contra hnone
    exact h fun d hd hscope => hnone ⟨d.row, d, hd.1, hd.2, rfl, hscope⟩
  · rintro ⟨r, d, hd, hpd, -, hscope⟩ h
    exact h d ⟨hd, hpd⟩ hscope

/-- What is found is the nearest candidate. -/
theorem nearest_of_visible? (ho : o.Ordered) (ht : o.ReadsFrom source)
    (hp : ∀ r, candidate r ↔ ∃ d ∈ o.declarations, p d = true ∧ d.row = r ∧ d.owner ∈ o.scopes i)
    {d : Declaration} (h : o.visible? (o.declarations.filter p) i = some d) :
    o.cst.Nearest o.tables o.kept candidate d.row := by
  obtain ⟨hmem, hscope, hnearest⟩ := visible?_eq_some ho (ho.pairwise_declarations.filter p) h
  obtain ⟨hd, hpd⟩ := List.mem_filter.1 hmem
  refine ⟨(hp d.row).2 ⟨d, hd, hpd, rfl, hscope⟩, fun r hr => ?_⟩
  obtain ⟨e, he, hpe, rfl, hescope⟩ := (hp r).1 hr
  have hdowner := ((mem_declarations_iff ho ht).1 hd).2
  have heowner := ((mem_declarations_iff ho ht).1 he).2
  rw [hdowner] at hscope hnearest
  rw [heowner] at hescope
  rcases hnearest e (List.mem_filter.2 ⟨he, hpe⟩) (heowner ▸ hescope) with hlt | ⟨heq, hle⟩
  · rw [heowner] at hlt
    exact .inl (ho.depth_ownerRow_lt hscope hescope hlt)
  · have hrows := ho.kept_owner e.row
    rw [← heowner, heq, ho.kept_owner] at hrows
    exact .inr ⟨(Option.some.inj hrows).symm, hle⟩

end Outline

end CodeGraph

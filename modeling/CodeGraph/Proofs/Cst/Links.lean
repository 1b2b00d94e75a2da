import CodeGraph.Cst.Abstraction
import CodeGraph.Language.Detection
import CodeGraph.Proofs.Cst.Shape

/-!
# The links of a source keep its syntax tree sound

Every link beyond the shape leads to a kept row, and every type link to a type name
(`valid_of_mem_links`). So a syntax tree made of rows in pre-order is sound
(`sound_of_toSyntaxTree`), and regular if type names are simple names, as they are in each language
(`regular_of_toSyntaxTree`).
-/

namespace CodeGraph

theorem Language.isSimpleName_of_isTypeName (language : Language) {kind : String}
    (h : language.tables.isTypeName kind = true) : language.tables.isSimpleName kind = true := by
  have hall : ∀ k ∈ language.tables.typeNames, k ∈ language.tables.simpleNames := by
    cases language <;> decide
  rw [Tables.isTypeName, List.contains_iff_mem] at h
  rw [Tables.isSimpleName, List.contains_iff_mem]
  exact hall kind h

namespace Outline

open Attempt SyntaxTree

variable {o : Outline}

/-! ## Where links lead -/

/-- Whether a link leads to a kept row, which if it is a type names one. -/
def Link.Valid (o : Outline) (l : Link) : Prop :=
  l.relation ≠ .structural ∧ ∃ i, o.kept[l.target]? = some i ∧
    (l.relation = .type → o.tables.isTypeName (o.cst.kind i) = true)

theorem link?_eq_some_iff {i j : Nat} {relation : Relation} {l : Link} :
    o.link? i relation j = some l ↔
      o.key? i = some l.source ∧ l.relation = relation ∧ o.key? j = some l.target := by
  obtain ⟨source, found, target⟩ := l
  simp only [link?, Option.bind_eq_bind, Option.bind_eq_some_iff, Option.some.injEq, Link.mk.injEq]
  constructor
  · rintro ⟨source, hsource, target, htarget, rfl, rfl, rfl⟩
    exact ⟨hsource, rfl, htarget⟩
  · rintro ⟨hsource, rfl, htarget⟩
    exact ⟨source, hsource, target, htarget, rfl, rfl, rfl⟩

theorem resolvesToLink?_eq_some_iff {declarations : List Declaration} {nameRows : List Nat}
    {i : Nat} {l : Link} : o.resolvesToLink? declarations nameRows i = some l ↔
      o.tables.isReference (o.cst.kind i) = true ∧ i ∉ nameRows ∧
      ∃ name d, o.text? i = some name ∧
        o.visible? (declarations.filter (·.name == name)) i = some d ∧
        o.link? i .resolvesTo d.row = some l := by
  rw [resolvesToLink?]
  split
  · next h =>
    obtain ⟨href, hname⟩ := Bool.and_eq_true_iff.1 h
    rw [Bool.not_eq_true', ← Bool.not_eq_true, List.contains_iff_mem] at hname
    simp only [Option.bind_eq_bind, Option.bind_eq_some_iff, href, hname, not_false_eq_true,
      true_and]
    constructor
    · rintro ⟨name, htext, d, hd, hlink⟩
      exact ⟨name, d, htext, hd, hlink⟩
    · rintro ⟨name, d, htext, hd, hlink⟩
      exact ⟨name, htext, d, hd, hlink⟩
  · next h =>
    simp only [reduceCtorEq, false_iff]
    rintro ⟨href, hname, -⟩
    refine h (Bool.and_eq_true_iff.2 ⟨href, ?_⟩)
    rw [Bool.not_eq_true', ← Bool.not_eq_true, List.contains_iff_mem]
    exact hname

theorem callsLink?_eq_some_iff {declarations : List Declaration} {i : Nat} {l : Link} :
    o.callsLink? declarations i = some l ↔ ∃ name d, o.calleeName? i = some name ∧
      o.visible? (declarations.filter fun d =>
        d.name == name && o.tables.isCallable (o.cst.kind d.row)) i = some d ∧
      o.link? i .calls d.row = some l := by
  simp only [callsLink?, Option.bind_eq_bind, Option.bind_eq_some_iff]
  constructor
  · rintro ⟨name, hname, d, hd, hlink⟩
    exact ⟨name, d, hname, hd, hlink⟩
  · rintro ⟨name, d, hname, hd, hlink⟩
    exact ⟨name, hname, d, hd, hlink⟩

theorem valid_of_key? (ho : o.Ordered) {l : Link} {i : Nat} (hkey : o.key? i = some l.target)
    (hs : l.relation ≠ .structural) (ht : l.relation ≠ .type) : l.Valid o :=
  ⟨hs, i, (ho.keys i _).1 hkey, fun heq => absurd heq ht⟩

theorem valid_of_mem_declaresLinks (ho : o.Ordered) {declarations : List Declaration} {l : Link}
    (h : l ∈ o.declaresLinks declarations) : l.Valid o := by
  obtain ⟨d, -, hd⟩ := List.mem_filterMap.1 h
  obtain ⟨target, htarget, rfl⟩ := Option.map_eq_some_iff.1 hd
  exact valid_of_key? ho htarget (by simp) (by simp)

theorem isTypeName_of_mem_typeNamesFrom {turns j : Nat} {stack : List Nat}
    (h : j ∈ o.typeNamesFrom turns stack) : o.tables.isTypeName (o.cst.kind j) = true := by
  induction turns generalizing stack with
  | zero => cases h
  | succ turns ih =>
    obtain _ | ⟨i, rest⟩ := stack
    · cases h
    rw [typeNamesFrom] at h
    split at h
    · next htype =>
      rcases List.mem_cons.1 h with rfl | h
      · exact htype
      · exact ih h
    · split at h
      · rcases List.mem_append.1 h with h | h
        · have hlast := Option.mem_toList.1 h
          exact (Option.filter_eq_some_iff.1 hlast).2
        · exact ih h
      · exact ih h

theorem valid_of_mem_typeLinks (ho : o.Ordered) {i : Nat} {l : Link} (h : l ∈ o.typeLinks i) :
    l.Valid o := by
  rw [typeLinks] at h
  split at h
  · obtain ⟨j, hj, hlink⟩ := List.mem_filterMap.1 h
    obtain ⟨-, hrel, hkey⟩ := link?_eq_some_iff.1 hlink
    refine ⟨by rw [hrel]; decide, j, (ho.keys j _).1 hkey, fun _ => ?_⟩
    exact isTypeName_of_mem_typeNamesFrom hj
  · cases h

theorem valid_of_resolvesToLink? (ho : o.Ordered) {declarations : List Declaration}
    {nameRows : List Nat} {i : Nat} {l : Link}
    (h : o.resolvesToLink? declarations nameRows i = some l) : l.Valid o := by
  obtain ⟨-, -, name, d, -, -, hlink⟩ := resolvesToLink?_eq_some_iff.1 h
  obtain ⟨-, hrel, hkey⟩ := link?_eq_some_iff.1 hlink
  exact valid_of_key? ho hkey (by rw [hrel]; decide) (by rw [hrel]; decide)

theorem valid_of_callsLink? (ho : o.Ordered) {declarations : List Declaration} {i : Nat} {l : Link}
    (h : o.callsLink? declarations i = some l) : l.Valid o := by
  obtain ⟨name, d, -, -, hlink⟩ := callsLink?_eq_some_iff.1 h
  obtain ⟨-, hrel, hkey⟩ := link?_eq_some_iff.1 hlink
  exact valid_of_key? ho hkey (by rw [hrel]; decide) (by rw [hrel]; decide)

theorem valid_of_mem_links (ho : o.Ordered) {l : Link} (h : l ∈ o.links) : l.Valid o := by
  rcases List.mem_append.1 h with h | h
  · exact valid_of_mem_declaresLinks ho h
  · obtain ⟨i, -, h⟩ := List.mem_flatMap.1 h
    rcases List.mem_append.1 h with h | h
    · rcases List.mem_append.1 h with h | h
      · exact valid_of_mem_typeLinks ho h
      · exact valid_of_resolvesToLink? ho (Option.mem_toList.1 h)
    · exact valid_of_callsLink? ho (Option.mem_toList.1 h)

/-! ## All links -/

/-- A tree with links added. -/
def withLinks (t : SyntaxTree) (links : List Link) : SyntaxTree :=
  links.foldl (fun t l => t.link l.source l.relation l.target) t

theorem withLinks_cons (t : SyntaxTree) (l : Link) (links : List Link) :
    withLinks t (l :: links) = withLinks (t.link l.source l.relation l.target) links := rfl

theorem size_withLinks (t : SyntaxTree) (links : List Link) :
    (withLinks t links).size = t.size := by
  induction links generalizing t with
  | nil => rfl
  | cons l rest ih => rw [withLinks_cons, ih, size_link]

theorem parentKey?_withLinks (t : SyntaxTree) (links : List Link) (k : Nat) :
    (withLinks t links).parentKey? k = t.parentKey? k := by
  induction links generalizing t with
  | nil => rfl
  | cons l rest ih => rw [withLinks_cons, ih, parentKey?_link]

theorem Carries.link {t : SyntaxTree} (h : o.Carries t) (source : Nat) (relation : Relation)
    (target : Nat) : o.Carries (t.link source relation target) := by
  intro k y hy
  obtain ⟨x, hx, hdata, -⟩ := node_of_link hy
  rw [hdata]
  exact h k x hx

theorem Carries.withLinks {t : SyntaxTree} (h : o.Carries t) (links : List Link) :
    o.Carries (withLinks t links) := by
  induction links generalizing t with
  | nil => exact h
  | cons l rest ih => exact ih (h.link l.source l.relation l.target)

theorem Link.Valid.target_lt {l : Link} (h : l.Valid o) : l.target < o.kept.length := by
  obtain ⟨-, i, hi, -⟩ := h
  exact (List.getElem?_eq_some_iff.1 hi).1

theorem sound_withLinks {links : List Link} (hvalid : ∀ l ∈ links, l.Valid o) {t : SyntaxTree}
    (h : t.Sound) (hsize : t.size = o.kept.length) : (withLinks t links).Sound := by
  induction links generalizing t with
  | nil => exact h
  | cons l rest ih =>
    have hl := hvalid l List.mem_cons_self
    exact ih (fun m hm => hvalid m (List.mem_cons_of_mem _ hm))
      (h.link hl.1 (hsize ▸ hl.target_lt)) ((size_link ..).trans hsize)

theorem regular_withLinks
    (htables : ∀ kind, o.tables.isTypeName kind = true → o.tables.isSimpleName kind = true)
    {links : List Link} (hvalid : ∀ l ∈ links, l.Valid o)
    {t : SyntaxTree} (h : t.Regular) (hsize : t.size = o.kept.length) (hdata : o.Carries t) :
    (withLinks t links).Regular := by
  induction links generalizing t with
  | nil => exact h
  | cons l rest ih =>
    have hl := hvalid l List.mem_cons_self
    have htarget : l.target < t.size := hsize ▸ hl.target_lt
    obtain ⟨hs, i, hi, htype⟩ := hl
    refine ih (fun m hm => hvalid m (List.mem_cons_of_mem _ hm)) (h.link hs htarget fun ht => ?_)
      ((size_link ..).trans hsize) (hdata.link _ _ _)
    have hy : t.nodes[l.target]? = some t.nodes[l.target] := Array.getElem?_eq_getElem htarget
    obtain ⟨j, hj, hsimple⟩ := hdata.simple hy
    rw [hi] at hj
    cases hj
    exact ⟨_, hy, hsimple.trans (htables _ (htype ht))⟩

/-- The links of the relations that are derived. -/
def emitted (o : Outline) (config : Config) : List Link :=
  o.links.filter fun l => config.emits l.relation

theorem valid_of_mem_emitted (ho : o.Ordered) {config : Config} :
    ∀ l ∈ o.emitted config, l.Valid o := fun _ hl =>
  valid_of_mem_links ho (List.mem_filter.1 hl).1

end Outline

namespace Cst

open Attempt Outline

variable {c : Cst} {tables : Language.Tables} {source path : String} {config : Config}
  {number : UInt32} {t : SyntaxTree}

/-- A syntax tree is made of a shape to which links are added. -/
theorem exists_shape (h : c.toSyntaxTree source tables config path number = .ok t) :
    ∃ shape, (make source c tables config).shape number path = .ok shape ∧
      t = withLinks shape ((make source c tables config).emitted config) := by
  rw [Cst.toSyntaxTree] at h
  split at h
  · cases h
  · rw [bind_eq, bind_eq_ok_iff] at h
    obtain ⟨shape, hshape, h⟩ := h
    cases h
    cases hok : (make source c tables config).shape number path with
    | error e =>
      rw [hok] at hshape
      cases hshape
    | ok made =>
      rw [hok] at hshape
      cases hshape
      exact ⟨_, rfl, rfl⟩

theorem PreOrdered.sound_of_toSyntaxTree (hc : c.PreOrdered)
    (h : c.toSyntaxTree source tables config path number = .ok t) : t.Sound := by
  obtain ⟨shape, hshape, rfl⟩ := exists_shape h
  have ho := ordered_make hc source tables config
  have hcopies := copies_of_shape ho hshape
  exact sound_withLinks (valid_of_mem_emitted ho) (hcopies.sound ho) hcopies.size

theorem PreOrdered.regular_of_toSyntaxTree (hc : c.PreOrdered) {language : Language}
    (h : c.toSyntaxTree source language.tables config path number = .ok t) : t.Regular := by
  obtain ⟨shape, hshape, rfl⟩ := exists_shape h
  have ho := ordered_make hc source language.tables config
  have hcopies := copies_of_shape ho hshape
  exact regular_withLinks (fun _ => language.isSimpleName_of_isTypeName) (valid_of_mem_emitted ho)
    (hcopies.regular ho) hcopies.size hcopies.data

end Cst

end CodeGraph

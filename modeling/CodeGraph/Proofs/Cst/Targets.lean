import CodeGraph.Proofs.Cst.Links
import CodeGraph.Proofs.Lists
import CodeGraph.Proofs.SyntaxTree.Targets

/-!
# What the node of a row is linked to

Each kept row gives links from its own node only (`source_of_mem_rowLinks`), and apart from what
declarations give, no other link starts there (`filter_links`). So what a node has under a relation
in the end are the targets that its row gives (`related?_of_toSyntaxTree`).
-/

namespace CodeGraph

namespace Outline

open SyntaxTree

variable {o : Outline} {i k : Nat} {l : Link} {relation : Relation}
  {declarations : List Declaration} {names : List Nat}

/-! ## Links from one key -/

/-- Whether a link leaves a key under a relation. -/
def Link.leaves (l : Link) (k : Nat) (relation : Relation) : Bool :=
  l.source == k && l.relation == relation

theorem Link.leaves_iff : l.leaves k relation = true ↔ l.source = k ∧ l.relation = relation := by
  rw [Link.leaves, Bool.and_eq_true, beq_iff_eq, beq_iff_eq]

theorem targetKeys_withLinks {t : SyntaxTree} (hk : k < t.size) (links : List Link) :
    (withLinks t links).targetKeys k relation =
      ((links.filter (·.leaves k relation)).map (·.target)).foldl addTarget
        (t.targetKeys k relation) := by
  induction links generalizing t with
  | nil => rfl
  | cons l rest ih =>
    rw [withLinks_cons, ih (by rwa [size_link]), targetKeys_link hk]
    by_cases hl : l.leaves k relation = true
    · rw [if_pos (Link.leaves_iff.1 hl), List.filter_cons, if_pos hl]
      rfl
    · rw [if_neg fun h => hl (Link.leaves_iff.2 h), List.filter_cons, if_neg hl]

theorem filter_leaves (hkey : o.key? i = some k) {r : Relation} {links : List Link}
    (h : ∀ l ∈ links, o.key? i = some l.source ∧ l.relation = r) :
    links.filter (·.leaves k relation) = if r = relation then links else [] := by
  have hsource : ∀ l ∈ links, l.source = k := fun l hl =>
    Option.some.inj ((h l hl).1.symm.trans hkey)
  split
  · next heq =>
    rw [List.filter_eq_self]
    exact fun l hl => Link.leaves_iff.2 ⟨hsource l hl, (h l hl).2.trans heq⟩
  · next hne =>
    rw [List.filter_eq_nil_iff]
    exact fun l hl hleaves => hne ((h l hl).2.symm.trans (Link.leaves_iff.1 hleaves).2)

/-! ## The links of one row -/

theorem mem_typeLinks (h : l ∈ o.typeLinks i) :
    o.key? i = some l.source ∧ l.relation = .type := by
  rw [typeLinks] at h
  split at h
  · obtain ⟨j, -, hlink⟩ := List.mem_filterMap.1 h
    obtain ⟨hsource, hrel, -⟩ := link?_eq_some_iff.1 hlink
    exact ⟨hsource, hrel⟩
  · cases h

theorem mem_resolvesToLink? (h : l ∈ (o.resolvesToLink? declarations names i).toList) :
    o.key? i = some l.source ∧ l.relation = .resolvesTo := by
  obtain ⟨-, -, name, d, -, -, hlink⟩ := resolvesToLink?_eq_some_iff.1 (Option.mem_toList.1 h)
  obtain ⟨hsource, hrel, -⟩ := link?_eq_some_iff.1 hlink
  exact ⟨hsource, hrel⟩

theorem mem_callsLink? (h : l ∈ (o.callsLink? declarations i).toList) :
    o.key? i = some l.source ∧ l.relation = .calls := by
  obtain ⟨name, d, -, -, hlink⟩ := callsLink?_eq_some_iff.1 (Option.mem_toList.1 h)
  obtain ⟨hsource, hrel, -⟩ := link?_eq_some_iff.1 hlink
  exact ⟨hsource, hrel⟩

theorem source_of_mem_rowLinks (h : l ∈ o.rowLinks declarations names i) :
    o.key? i = some l.source := by
  rcases List.mem_append.1 h with h | h
  · rcases List.mem_append.1 h with h | h
    · exact (mem_typeLinks h).1
    · exact (mem_resolvesToLink? h).1
  · exact (mem_callsLink? h).1

theorem relation_of_mem_rowLinks (h : l ∈ o.rowLinks declarations names i) :
    l.relation ≠ .declares := by
  rcases List.mem_append.1 h with h | h
  · rcases List.mem_append.1 h with h | h
    · rw [(mem_typeLinks h).2]
      decide
    · rw [(mem_resolvesToLink? h).2]
      decide
  · rw [(mem_callsLink? h).2]
    decide

theorem filter_rowLinks (hkey : o.key? i = some k) :
    (o.rowLinks declarations names i).filter (·.leaves k relation) =
      (if .type = relation then o.typeLinks i else []) ++
      (if .resolvesTo = relation then (o.resolvesToLink? declarations names i).toList else []) ++
      (if .calls = relation then (o.callsLink? declarations i).toList else []) := by
  rw [rowLinks, List.filter_append, List.filter_append, filter_leaves hkey fun l => mem_typeLinks,
    filter_leaves hkey fun l => mem_resolvesToLink?, filter_leaves hkey fun l => mem_callsLink?]

/-! ## The links of a source -/

/-- The rows of the names of declarations. -/
def nameRows (o : Outline) : List Nat := o.declarations.filterMap fun d => o.nameRow? d.row

/-- Apart from what declarations give, the links that leave a key are those of its row. -/
theorem filter_links (ho : o.Ordered) (hi : o.kept[k]? = some i) (hrel : relation ≠ .declares) :
    o.links.filter (·.leaves k relation) =
      (o.rowLinks o.declarations o.nameRows i).filter (·.leaves k relation) := by
  have hdeclares : (o.declaresLinks o.declarations).filter (·.leaves k relation) = [] := by
    rw [List.filter_eq_nil_iff]
    intro l hl hleaves
    obtain ⟨d, -, hd⟩ := List.mem_filterMap.1 hl
    obtain ⟨target, -, rfl⟩ := Option.map_eq_some_iff.1 hd
    exact hrel (Link.leaves_iff.1 hleaves).2.symm
  have hkey : o.key? i = some k := (ho.keys i k).2 hi
  have hone : o.kept.countP (· == i) ≤ 1 :=
    List.nodup_iff_count_le_one.1 (ho.ascending.imp Nat.ne_of_lt) i
  have hother : ∀ j ∈ o.kept, (j == i) = false →
      (o.rowLinks o.declarations o.nameRows j).filter (·.leaves k relation) = [] := by
    intro j _ hne
    rw [List.filter_eq_nil_iff]
    intro l hl hleaves
    have hj := source_of_mem_rowLinks hl
    rw [(Link.leaves_iff.1 hleaves).1, ho.keys, hi, Option.some.injEq] at hj
    rw [hj, beq_self_eq_true] at hne
    cases hne
  have hfind : o.kept.find? (· == i) = some i :=
    Lists.find?_of_countP_le_one hone (List.mem_of_getElem? hi) (beq_self_eq_true i)
  change (_ ++ o.kept.flatMap (o.rowLinks o.declarations o.nameRows)).filter _ = _
  rw [List.filter_append, hdeclares, List.nil_append,
    Lists.filter_flatMap_of_countP_le_one hone hother, hfind]
  rfl

theorem filter_emitted {config : Config} (hemits : config.emits relation = true) :
    (o.emitted config).filter (·.leaves k relation) = o.links.filter (·.leaves k relation) := by
  rw [emitted, List.filter_filter]
  refine List.filter_congr fun l _ => ?_
  cases hl : l.leaves k relation with
  | false => rfl
  | true => rw [(Link.leaves_iff.1 hl).2, hemits, Bool.and_true]

/-! ## The targets of one row -/

theorem Copies.targetKeys_eq_nil {t : SyntaxTree} (h : o.Copies t o.kept.length)
    (hrel : relation ≠ .structural) (hk : k < t.size) : t.targetKeys k relation = [] := by
  have hx : t.nodes[k]? = some t.nodes[k] := Array.getElem?_eq_getElem hk
  rw [targetKeys, hx, Option.elim_some]
  exact List.eq_nil_iff_forall_not_mem.2 fun j hj =>
    hrel (h.linked hx (linked_of_mem_targets hj)).1

end Outline

namespace Cst

open Outline SyntaxTree

variable {c : Cst} {source path : String} {tables : Language.Tables} {config : Config}
  {number : UInt32} {t : SyntaxTree} {i k : Nat} {relation : Relation}

theorem PreOrdered.size_of_toSyntaxTree (hc : c.PreOrdered)
    (h : c.toSyntaxTree source tables config path number = .ok t) :
    t.size = (c.kept config.includeAnonymous).length := by
  obtain ⟨shape, hshape, rfl⟩ := exists_shape h
  have hcopies := copies_of_shape (ordered_make hc source tables config) hshape
  exact (size_withLinks ..).trans hcopies.size

theorem PreOrdered.related?_eq_emitted (hc : c.PreOrdered)
    (h : c.toSyntaxTree source tables config path number = .ok t) (hk : k < t.size)
    (hstructural : relation ≠ .structural) :
    t.related? k relation = .ok
      (((((make source c tables config).emitted config).filter (·.leaves k relation)).map
        (·.target)).foldl addTarget []) := by
  rw [(hc.sound_of_toSyntaxTree h).related?_eq hk]
  obtain ⟨shape, hshape, rfl⟩ := exists_shape h
  have hcopies := copies_of_shape (ordered_make hc source tables config) hshape
  rw [size_withLinks] at hk
  rw [targetKeys_withLinks hk, hcopies.targetKeys_eq_nil hstructural hk]

theorem PreOrdered.related?_of_toSyntaxTree (hc : c.PreOrdered)
    (h : c.toSyntaxTree source tables config path number = .ok t)
    (hi : (c.kept config.includeAnonymous)[k]? = some i) (hstructural : relation ≠ .structural)
    (hdeclares : relation ≠ .declares) (hemits : config.emits relation = true) :
    t.related? k relation = .ok
      (((((make source c tables config).rowLinks (make source c tables config).declarations
        (make source c tables config).nameRows i).filter
          (·.leaves k relation)).map (·.target)).foldl addTarget []) := by
  have hk : k < t.size := by
    rw [hc.size_of_toSyntaxTree h]
    exact (List.getElem?_eq_some_iff.1 hi).1
  have ho := ordered_make hc source tables config
  rw [hc.related?_eq_emitted h hk hstructural, filter_emitted hemits, filter_links ho hi hdeclares]

variable (hc : c.PreOrdered) (h : c.toSyntaxTree source tables config path number = .ok t)
  (hi : (c.kept config.includeAnonymous)[k]? = some i)

include hc h hi

theorem PreOrdered.related?_resolvesTo (hemits : config.emits .resolvesTo = true) :
    t.related? k .resolvesTo = .ok (((make source c tables config).resolvesToLink?
      (make source c tables config).declarations
      (make source c tables config).nameRows i).toList.map (·.target)) := by
  have hkey := ((ordered_make hc source tables config).keys i k).2 hi
  rw [hc.related?_of_toSyntaxTree h hi (by decide) (by decide) hemits, filter_rowLinks hkey]
  cases (make source c tables config).resolvesToLink? _ _ i <;> rfl

theorem PreOrdered.related?_calls (hemits : config.emits .calls = true) :
    t.related? k .calls = .ok (((make source c tables config).callsLink?
      (make source c tables config).declarations i).toList.map (·.target)) := by
  have hkey := ((ordered_make hc source tables config).keys i k).2 hi
  rw [hc.related?_of_toSyntaxTree h hi (by decide) (by decide) hemits, filter_rowLinks hkey]
  cases (make source c tables config).callsLink? _ i <;> rfl

end Cst

end CodeGraph

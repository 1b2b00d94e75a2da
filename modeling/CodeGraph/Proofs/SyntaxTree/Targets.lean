import CodeGraph.Proofs.Lists
import CodeGraph.Proofs.SyntaxTree.View

/-!
# What the nodes of a syntax tree are linked to

A link adds its target to those that its source has under its relation, and to no others
(`targetKeys_link`). In a sound tree these are what is seen (`Sound.related?_eq`).
-/

namespace CodeGraph.SyntaxTree

open Attempt

/-- Adds a target to others, unless it is one of them. -/
def addTarget (targets : List Nat) (target : Nat) : List Nat :=
  if targets.contains target then targets else targets ++ [target]

theorem foldl_addTarget_map {f : Nat → Nat} {count : Nat} {targets added : List Nat}
    (hf : ∀ i < count, ∀ j < count, f i = f j → i = j) (htargets : ∀ i ∈ targets, i < count)
    (hadded : ∀ i ∈ added, i < count) :
    (added.map f).foldl addTarget (targets.map f) = (added.foldl addTarget targets).map f := by
  induction added generalizing targets with
  | nil => rfl
  | cons i rest ih =>
    obtain ⟨hi, hrest⟩ := List.forall_mem_cons.1 hadded
    have hmem : f i ∈ targets.map f ↔ i ∈ targets := by
      refine ⟨fun h => ?_, List.mem_map_of_mem⟩
      obtain ⟨j, hj, heq⟩ := List.mem_map.1 h
      exact hf j (htargets j hj) i hi heq ▸ hj
    have hadd : addTarget (targets.map f) (f i) = (addTarget targets i).map f := by
      simp only [addTarget, List.contains_iff_mem, hmem]
      split <;> simp
    have hinside : ∀ j ∈ addTarget targets i, j < count := by
      intro j hj
      rw [addTarget] at hj
      split at hj
      · exact htargets j hj
      · rcases List.mem_append.1 hj with hj | hj
        · exact htargets j hj
        · exact List.mem_singleton.1 hj ▸ hi
    rw [List.map_cons, List.foldl_cons, List.foldl_cons, hadd, ih hinside hrest]

theorem foldl_addTarget_of_nodup {targets added : List Nat} (h : (targets ++ added).Nodup) :
    added.foldl addTarget targets = targets ++ added := by
  induction added generalizing targets with
  | nil => rw [List.foldl_nil, List.append_nil]
  | cons target rest ih =>
    have hnew : target ∉ targets := fun hmem =>
      (List.nodup_append.1 h).2.2 target hmem target List.mem_cons_self rfl
    rw [List.append_cons] at h ⊢
    rw [List.foldl_cons, addTarget, if_neg (by simpa using hnew)]
    exact ih h

theorem targets_insertLink (relation : Relation) (target : Nat)
    (links : List (Relation × List Nat)) :
    targets (insertLink relation target links) relation =
      addTarget (targets links relation) target := by
  induction links with
  | nil => simp [insertLink, targets, addTarget]
  | cons entry rest ih =>
    obtain ⟨other, found⟩ := entry
    rw [insertLink]
    by_cases heq : other = relation
    · rw [if_pos heq]
      simp [targets, heq, addTarget]
    · rw [if_neg heq]
      simpa [targets, heq] using ih

theorem linked_of_mem_targets {links : List (Relation × List Nat)} {relation : Relation}
    {target : Nat} (h : target ∈ targets links relation) : Linked links relation target := by
  rw [targets] at h
  cases hentry : links.find? (·.1 == relation) with
  | none =>
    rw [hentry] at h
    cases h
  | some e =>
    rw [hentry] at h
    have heq : e.1 = relation := by simpa using List.find?_some hentry
    exact ⟨e.2, heq ▸ List.mem_of_find?_eq_some hentry, h⟩

theorem mem_targets_of_linked {links : List (Relation × List Nat)} {relation : Relation}
    {target : Nat} (hnodup : (links.map (·.1)).Nodup) (h : Linked links relation target) :
    target ∈ targets links relation := by
  obtain ⟨found, he, htarget⟩ := h
  rw [targets, Lists.find?_of_countP_le_one (countP_relation_le_one hnodup relation) he
    (beq_self_eq_true relation)]
  exact htarget

variable {t : SyntaxTree} {k : Nat} {relation : Relation}

/-- The targets that a key has under a relation. -/
def targetKeys (t : SyntaxTree) (k : Nat) (relation : Relation) : List Nat :=
  targets (t.nodes[k]?.elim [] (·.links)) relation

theorem targetKeys_link (hk : k < t.size) (source : Nat) (r : Relation) (target : Nat) :
    (t.link source r target).targetKeys k relation =
      if source = k ∧ r = relation then addTarget (t.targetKeys k relation) target
      else t.targetKeys k relation := by
  have hx : t.nodes[k]? = some t.nodes[k] := Array.getElem?_eq_getElem hk
  rw [targetKeys, targetKeys, getElem?_link, hx]
  by_cases hsource : source = k
  · rw [if_pos hsource]
    by_cases hrel : r = relation
    · rw [if_pos ⟨hsource, hrel⟩, hrel]
      exact targets_insertLink ..
    · rw [if_neg fun h => hrel h.2]
      exact targets_insertLink_of_ne hrel
  · rw [if_neg hsource, if_neg fun h => hsource h.1]

theorem Sound.related?_eq (h : t.Sound) (hk : k < t.size) :
    t.related? k relation = .ok (t.targetKeys k relation) := by
  have hx : t.nodes[k]? = some t.nodes[k] := Array.getElem?_eq_getElem hk
  rw [related?, h.links?_eq hx, bind_eq, ok_bind, targetKeys, hx]
  rfl

theorem lt_size_of_related? {keys : List Nat} (h : t.related? k relation = .ok keys) :
    k < t.size := by
  by_contra hk
  have hnone : t.nodes[k]? = none := Array.getElem?_eq_none (Nat.le_of_not_lt hk)
  rw [related?, links?, node?, hnone] at h
  cases h

/-! ## Nodes that are related -/

/-- Whether `j` is seen among the targets of `k` under a relation. -/
def Relates (t : SyntaxTree) (relation : Relation) (k j : Nat) : Prop :=
  ∃ keys, t.related? k relation = .ok keys ∧ j ∈ keys

theorem relates_iff {keys : List Nat} (h : t.related? k relation = .ok keys) {j : Nat} :
    t.Relates relation k j ↔ j ∈ keys := by
  rw [Relates, h]
  simp

theorem lt_size_of_relates {j : Nat} (h : t.Relates relation k j) : k < t.size := by
  obtain ⟨keys, hkeys, -⟩ := h
  exact lt_size_of_related? hkeys

theorem Sound.relates_iff_linked (h : t.Sound) {x : Node} (hx : t.nodes[k]? = some x) {j : Nat} :
    t.Relates relation k j ↔ Linked x.links relation j := by
  rw [relates_iff (h.related?_eq (Array.getElem?_eq_some_iff.1 hx).1), targetKeys, hx]
  exact ⟨linked_of_mem_targets, mem_targets_of_linked (h.oneEntry k x hx)⟩

theorem Sound.relates_structural_iff (h : t.Sound) {j : Nat} :
    t.Relates .structural k j ↔ t.parentKey? j = some k := by
  constructor
  · intro hrelates
    have hchildren := h.children?_eq (lt_size_of_relates hrelates)
    exact mem_keysBelow_iff.1 ((relates_iff hchildren).1 hrelates)
  · intro hparent
    have hj := lt_size_of_parentKey? hparent
    have hpos : 0 < j := by
      rw [Nat.pos_iff_ne_zero]
      rintro rfl
      rw [h.top] at hparent
      cases hparent
    obtain ⟨p, hlt, hp⟩ := h.parents j hpos hj
    obtain rfl : k = p := Option.some.inj (hparent.symm.trans hp)
    exact ⟨_, h.children?_eq (Nat.lt_trans hlt hj), mem_keysBelow_iff.2 hparent⟩

end CodeGraph.SyntaxTree

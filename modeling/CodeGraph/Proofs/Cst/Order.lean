import CodeGraph.Cst.Outline
import CodeGraph.Proofs.Ast.Numbered

/-!
# Rows and keys in pre-order

In the rows of a tree in pre-order, what is above a row is what was above the row before it, or that
row too, from some place on (`ancestors_succ_suffix`). So a row that a later one is not below has no
more rows below it (`not_mem_ancestors_of_le`). The kept rows are numbered in order, and their
nearest kept rows above form a tree in pre-order again: `parentKey?_zero`, `exists_parentKey?`,
`parentKey?_lt` and `parentKey?_ne`.
-/

namespace CodeGraph

namespace Cst

/-- The rows of one tree in pre-order: the root comes first, and the parent of each later row is the
row before it or above that. A parser numbers rows in 32 bits, as keys are. -/
structure PreOrdered (c : Cst) : Prop where
  nonempty : 0 < c.size
  small : c.size ≤ UInt32.size
  root : c.parent? 0 = none
  parent : ∀ i, i + 1 < c.size → ∃ p, c.parent? (i + 1) = some p ∧ (p = i ∨ p ∈ c.ancestors i)

instance (c : Cst) : Decidable c.PreOrdered :=
  decidable_of_iff (0 < c.size ∧ c.size ≤ UInt32.size ∧ c.parent? 0 = none ∧
      ∀ i < c.size - 1, ∃ p ∈ c.parent? (i + 1), p = i ∨ p ∈ c.ancestors i)
    ⟨fun ⟨nonempty, small, root, parent⟩ =>
      ⟨nonempty, small, root, fun i hi => parent i (Nat.lt_sub_of_add_lt hi)⟩,
    fun h => ⟨h.nonempty, h.small, h.root, fun i hi => h.parent i (Nat.add_lt_of_lt_sub hi)⟩⟩

/-! ## Rows above a row -/

variable {c : Cst}

theorem ancestors_eq (c : Cst) (i : Nat) :
    c.ancestors i = [] ∨ ∃ p < i, c.parent? i = some p ∧ c.ancestors i = p :: c.ancestors p := by
  rw [ancestors]
  split
  · next p hp =>
    split
    · next hlt => exact .inr ⟨p, hlt, hp, rfl⟩
    · exact .inl rfl
  · exact .inl rfl

theorem lt_of_mem_ancestors {i j : Nat} (h : j ∈ c.ancestors i) : j < i := by
  induction i using Nat.strongRecOn with
  | ind i ih =>
    obtain hnil | ⟨p, hlt, -, hcons⟩ := c.ancestors_eq i
    · rw [hnil] at h
      cases h
    · rw [hcons] at h
      rcases List.mem_cons.1 h with rfl | h
      · exact hlt
      · exact Nat.lt_trans (ih p hlt h) hlt

theorem pairwise_ancestors (c : Cst) (i : Nat) : (c.ancestors i).Pairwise (· > ·) := by
  induction i using Nat.strongRecOn with
  | ind i ih =>
    obtain hnil | ⟨p, hlt, -, hcons⟩ := c.ancestors_eq i
    · rw [hnil]
      exact .nil
    · rw [hcons]
      exact .cons (fun j => lt_of_mem_ancestors) (ih p hlt)

theorem suffix_ancestors {i p : Nat} (h : p ∈ c.ancestors i) :
    p :: c.ancestors p <:+ c.ancestors i := by
  induction i using Nat.strongRecOn with
  | ind i ih =>
    obtain hnil | ⟨q, hlt, -, hcons⟩ := c.ancestors_eq i
    · rw [hnil] at h
      cases h
    · rw [hcons] at h ⊢
      rcases List.mem_cons.1 h with rfl | h
      · exact List.suffix_rfl
      · exact (ih q hlt h).trans (List.suffix_cons q _)

theorem PreOrdered.ancestors_zero (h : c.PreOrdered) : c.ancestors 0 = [] := by
  rw [ancestors, h.root]

theorem PreOrdered.ancestors_succ (h : c.PreOrdered) {i : Nat} (hi : i + 1 < c.size) :
    ∃ p, (p = i ∨ p ∈ c.ancestors i) ∧ c.ancestors (i + 1) = p :: c.ancestors p := by
  obtain ⟨p, hp, hopen⟩ := h.parent i hi
  have hlt : p < i + 1 := by
    rcases hopen with rfl | hmem
    · exact Nat.lt_succ_self _
    · exact Nat.lt_succ_of_lt (lt_of_mem_ancestors hmem)
  refine ⟨p, hopen, ?_⟩
  rw [ancestors, hp]
  exact if_pos hlt

/-- Above a row are the row before it and what is above that, from some place on. -/
theorem PreOrdered.ancestors_succ_suffix (h : c.PreOrdered) {i : Nat} (hi : i + 1 < c.size) :
    c.ancestors (i + 1) <:+ i :: c.ancestors i := by
  obtain ⟨p, rfl | hmem, heq⟩ := h.ancestors_succ hi
  · exact heq ▸ List.suffix_rfl
  · rw [heq]
    exact (suffix_ancestors hmem).trans (List.suffix_cons i _)

theorem PreOrdered.not_mem_ancestors_of_le (h : c.PreOrdered) {r s t : Nat} (hrs : r < s)
    (hst : s ≤ t) (ht : t < c.size) (hr : r ∉ c.ancestors s) : r ∉ c.ancestors t := by
  induction hst with
  | refl => exact hr
  | @step t hst ih =>
    intro hmem
    rcases List.mem_cons.1 ((h.ancestors_succ_suffix ht).subset hmem) with rfl | hmem
    · exact Nat.lt_irrefl _ (Nat.lt_of_lt_of_le hrs hst)
    · exact ih (Nat.lt_of_succ_lt ht) hmem

theorem PreOrdered.zero_mem_ancestors (h : c.PreOrdered) {i : Nat} (hpos : 0 < i)
    (hi : i < c.size) : 0 ∈ c.ancestors i := by
  induction i using Nat.strongRecOn with
  | ind i ih =>
    obtain ⟨i, rfl⟩ : ∃ j, i = j + 1 := ⟨i - 1, by omega⟩
    obtain ⟨p, hopen, heq⟩ := h.ancestors_succ hi
    have hlt : p < i + 1 := lt_of_mem_ancestors (heq ▸ List.mem_cons_self)
    rw [heq]
    rcases Nat.eq_zero_or_pos p with rfl | hp
    · exact List.mem_cons_self
    · exact List.mem_cons_of_mem _ (ih p hlt hp (by omega))

theorem PreOrdered.preOrder (h : c.PreOrdered) : Ast.PreOrder c.parent? c.size where
  top := h.root
  parents k hpos hk := by
    obtain ⟨k, rfl⟩ : ∃ j, k = j + 1 := ⟨k - 1, by omega⟩
    obtain ⟨p, hp, rfl | hmem⟩ := h.parent k hk
    · exact ⟨p, Nat.lt_succ_self p, hp⟩
    · exact ⟨p, Nat.lt_succ_of_lt (lt_of_mem_ancestors hmem), hp⟩
  noReturn k l m p hkl hlm hm hp hpk hkm := by
    have hl : k ∉ c.ancestors l := by
      rw [ancestors, hp]
      intro hmem
      simp only [Nat.lt_trans hpk hkl, if_true, List.mem_cons] at hmem
      rcases hmem with rfl | hmem
      · exact Nat.lt_irrefl _ hpk
      · exact Nat.lt_asymm hpk (lt_of_mem_ancestors hmem)
    refine h.not_mem_ancestors_of_le hkl (Nat.le_of_lt hlm) hm hl ?_
    rw [ancestors, hkm]
    simp [Nat.lt_trans hkl hlm]

theorem lt_size_of_parent? {i p : Nat} (h : c.parent? i = some p) : i < c.size := by
  obtain ⟨r, hr, -⟩ := Option.bind_eq_some_iff.1 h
  exact (Array.getElem?_eq_some_iff.1 hr).1

theorem PreOrdered.lt_of_parent? (h : c.PreOrdered) {i p : Nat} (hp : c.parent? i = some p) :
    p < i := by
  have hpos : 0 < i := by
    rw [Nat.pos_iff_ne_zero]
    rintro rfl
    rw [h.root] at hp
    cases hp
  obtain ⟨q, hlt, hq⟩ := h.preOrder.parents i hpos (lt_size_of_parent? hp)
  rw [hp, Option.some.injEq] at hq
  exact hq ▸ hlt

/-! ## Children -/

/-- A table that is filled from the last row to the first has at each place the rows in order that
were put there. -/
theorem getElem?_foldr_modify (parent : Nat → Option Nat)
    {put : Nat → Array (List Nat) → Array (List Nat)}
    (hput : ∀ j table, put j table = (parent j).elim table fun p => table.modify p (j :: ·))
    (numbers : List Nat) {size i : Nat} (hi : i < size) :
    (numbers.foldr put (Array.replicate size []))[i]? =
      some (numbers.filter (parent · == some i)) := by
  induction numbers with
  | nil =>
    rw [List.foldr_nil, Array.getElem?_replicate, if_pos hi]
    rfl
  | cons j rest ih =>
    rw [List.foldr_cons, hput]
    cases hparent : parent j with
    | none =>
      rw [List.filter_cons_of_neg (by simp [hparent])]
      exact ih
    | some p =>
      rw [Option.elim_some, Array.getElem?_modify, ih]
      by_cases heq : p = i
      · rw [if_pos heq, List.filter_cons_of_pos (by simp [hparent, heq])]
        rfl
      · rw [if_neg heq, List.filter_cons_of_neg (by simp [hparent, heq])]

theorem children_eq {i : Nat} (hi : i < c.size) :
    c.children i = (List.range c.size).filter (c.parent? · == some i) := by
  have hrows : i < c.rows.size := hi
  rw [children, c.below_eq, childTable, getElem?_foldr_modify c.parent? _ _ hrows]
  · rfl
  · intro j table
    cases h : c.rows[j]?.bind (·.parent) <;> simp [parent?, h]

theorem mem_children_iff {i p : Nat} (hp : p < c.size) :
    i ∈ c.children p ↔ c.parent? i = some p := by
  rw [children_eq hp, List.mem_filter, List.mem_range, beq_iff_eq]
  exact ⟨And.right, fun h => ⟨lt_size_of_parent? h, h⟩⟩

theorem PreOrdered.children_append_pending (h : c.PreOrdered) {k : Nat} (hk : k < c.size) :
    c.children k ++ ((Ast.pending c.parent? c.size k).filter (fun j => k < j.val)).map Fin.val =
      (Ast.pending c.parent? c.size (k + 1)).map Fin.val := by
  have hrange : List.range c.size = (List.finRange c.size).map Fin.val := by simp
  rw [← h.preOrder.children_append hk, List.map_append, children_eq hk, hrange, List.filter_map]
  rfl

/-! ## Keys -/

theorem getElem?_foldl_setIfInBounds {rows : List Nat} (hnodup : rows.Nodup) (start : Nat)
    (table : Array (Option Nat)) (hinside : ∀ i ∈ rows, i < table.size) (i k : Nat) :
    (((rows.zipIdx start).foldl (fun table (i, key) => table.setIfInBounds i (some key))
      table)[i]?.join = some k) ↔
      (∃ place, rows[place]? = some i ∧ k = start + place) ∨
        (i ∉ rows ∧ table[i]?.join = some k) := by
  -- Later writes do not touch the place of the first row, which is not among them.
  induction rows generalizing start table with
  | nil => simp
  | cons j rest ih =>
    obtain ⟨hj, hrest⟩ := List.nodup_cons.1 hnodup
    rw [List.zipIdx_cons, List.foldl_cons, ih hrest _ _ fun i hi => by
      rw [Array.size_setIfInBounds]
      exact hinside i (List.mem_cons_of_mem _ hi)]
    have hplaces : (∃ place, (j :: rest)[place]? = some i ∧ k = start + place) ↔
        (j = i ∧ k = start) ∨ ∃ place, rest[place]? = some i ∧ k = start + 1 + place := by
      constructor
      · rintro ⟨_ | place, hplace, rfl⟩
        · exact .inl ⟨by simpa using hplace, rfl⟩
        · exact .inr ⟨place, by simpa using hplace, by omega⟩
      · rintro (⟨rfl, rfl⟩ | ⟨place, hplace, rfl⟩)
        · exact ⟨0, rfl, rfl⟩
        · exact ⟨place + 1, by simpa using hplace, by omega⟩
    rw [hplaces, Array.getElem?_setIfInBounds]
    by_cases hij : j = i
    · subst hij
      have hlt := hinside j List.mem_cons_self
      have hnone : ¬ ∃ place, rest[place]? = some j ∧ k = start + 1 + place := by
        rintro ⟨place, hplace, -⟩
        exact hj (List.mem_of_getElem? hplace)
      simp only [hnone, hj, or_false, false_or, not_false_eq_true, true_and, hlt, if_true,
        Option.join_some, Option.some.injEq, List.mem_cons, not_true_eq_false, false_and]
      exact eq_comm
    · simp [hij, Ne.symm hij]

theorem keyTable_eq_some_iff {rows : List Nat} (hnodup : rows.Nodup)
    (hinside : ∀ i ∈ rows, i < c.size) (i k : Nat) :
    (c.keyTable rows)[i]?.join = some k ↔ rows[k]? = some i := by
  rw [keyTable, getElem?_foldl_setIfInBounds hnodup 0 _ (by simpa using hinside)]
  have hempty : ((Array.replicate c.size (none : Option Nat))[i]?).join = none := by
    rw [Array.getElem?_replicate]
    split <;> rfl
  simp [hempty]

theorem kept_eq_cons (h : 0 < c.size) (includeAnonymous : Bool) :
    ∃ rest, c.kept includeAnonymous = 0 :: rest := by
  obtain ⟨size, hsize⟩ : ∃ size, c.size = size + 1 := ⟨c.size - 1, by omega⟩
  rw [kept, hsize, List.range_succ_eq_map, List.filter_cons_of_pos rfl]
  exact ⟨_, rfl⟩

end Cst

namespace Outline

/-- An outline with rows in pre-order, the kept ones in order, and keys that number these. -/
structure Ordered (o : Outline) : Prop where
  rows : o.cst.PreOrdered
  first : o.kept[0]? = some 0
  inOrder : o.kept.Sublist (List.range o.cst.size)
  keys : ∀ i k, o.key? i = some k ↔ o.kept[k]? = some i

variable {o : Outline}

theorem Ordered.ascending (h : o.Ordered) : o.kept.Pairwise (· < ·) :=
  List.pairwise_lt_range.sublist h.inOrder

theorem Ordered.inside (h : o.Ordered) : ∀ i ∈ o.kept, i < o.cst.size := fun _ hi =>
  List.mem_range.1 (h.inOrder.subset hi)

theorem Ordered.length_kept_le (h : o.Ordered) : o.kept.length ≤ o.cst.size := by
  simpa using h.inOrder.length_le

theorem ordered_make {c : Cst} (h : c.PreOrdered) (source : String) (tables : Language.Tables)
    (config : Config) : (make source c tables config).Ordered := by
  have hsub : (c.kept config.includeAnonymous).Sublist (List.range c.size) :=
    List.filter_sublist
  obtain ⟨rest, hfirst⟩ := Cst.kept_eq_cons h.nonempty config.includeAnonymous
  refine ⟨h, ?_, hsub, ?_⟩
  · change (c.kept config.includeAnonymous)[0]? = some 0
    rw [hfirst]
    rfl
  · exact Cst.keyTable_eq_some_iff (List.nodup_range.sublist hsub) fun i hi =>
      List.mem_range.1 (hsub.subset hi)

/-- The key of the nearest kept row above the row of a key. -/
def parentKey? (o : Outline) (k : Nat) : Option Nat :=
  o.kept[k]?.bind fun i => (o.scopes i).head?

theorem Ordered.row_lt_iff (h : o.Ordered) {k l i j : Nat} (hk : o.kept[k]? = some i)
    (hl : o.kept[l]? = some j) : i < j ↔ k < l := by
  obtain ⟨hklt, rfl⟩ := List.getElem?_eq_some_iff.1 hk
  obtain ⟨hllt, rfl⟩ := List.getElem?_eq_some_iff.1 hl
  have hmono := List.pairwise_iff_getElem.1 h.ascending
  refine ⟨fun hlt => ?_, hmono k l hklt hllt⟩
  rcases Nat.lt_trichotomy k l with hkl | rfl | hlk
  · exact hkl
  · exact absurd hlt (Nat.lt_irrefl _)
  · exact absurd (hmono l k hllt hklt hlk) (Nat.lt_asymm hlt)

theorem Ordered.mem_scopes_iff (h : o.Ordered) {i k : Nat} :
    k ∈ o.scopes i ↔ ∃ r ∈ o.cst.ancestors i, o.kept[k]? = some r := by
  simp only [scopes, List.mem_filterMap, h.keys]

theorem Ordered.pairwise_scopes (h : o.Ordered) (i : Nat) : (o.scopes i).Pairwise (· > ·) := by
  refine (o.cst.pairwise_ancestors i).filterMap _ fun r s hrs k hk l hl => ?_
  rw [h.keys] at hk hl
  exact (h.row_lt_iff hl hk).1 hrs

theorem Ordered.parentKey?_eq_some (h : o.Ordered) {k p : Nat} (hp : o.parentKey? k = some p) :
    ∃ i r, o.kept[k]? = some i ∧ o.kept[p]? = some r ∧ r ∈ o.cst.ancestors i ∧
      ∀ l ∈ o.scopes i, l ≤ p := by
  obtain ⟨i, hi, hhead⟩ := Option.bind_eq_some_iff.1 hp
  obtain ⟨rest, hscopes⟩ : ∃ rest, o.scopes i = p :: rest := by
    cases hs : o.scopes i with
    | nil =>
      rw [hs] at hhead
      cases hhead
    | cons q rest =>
      rw [hs] at hhead
      cases hhead
      exact ⟨rest, rfl⟩
  obtain ⟨r, hr, hkey⟩ := h.mem_scopes_iff.1 (hscopes ▸ List.mem_cons_self : p ∈ o.scopes i)
  refine ⟨i, r, hi, hkey, hr, fun l hl => ?_⟩
  have hpairwise := h.pairwise_scopes i
  rw [hscopes] at hl hpairwise
  rcases List.mem_cons.1 hl with rfl | hl
  · exact Nat.le_refl _
  · exact Nat.le_of_lt ((List.pairwise_cons.1 hpairwise).1 l hl)

theorem Ordered.parentKey?_zero (h : o.Ordered) : o.parentKey? 0 = none := by
  rw [parentKey?, h.first, Option.bind_some, scopes, h.rows.ancestors_zero]
  rfl

theorem Ordered.parentKey?_lt (h : o.Ordered) {k p : Nat} (hp : o.parentKey? k = some p) :
    p < k := by
  obtain ⟨i, r, hi, hr, hmem, -⟩ := h.parentKey?_eq_some hp
  exact (h.row_lt_iff hr hi).1 (Cst.lt_of_mem_ancestors hmem)

theorem Ordered.exists_parentKey? (h : o.Ordered) {k : Nat} (hpos : 0 < k)
    (hk : k < o.kept.length) : ∃ p, o.parentKey? k = some p := by
  have hi := List.getElem?_eq_getElem hk
  have hrow : 0 < o.kept[k] := (h.row_lt_iff h.first hi).2 hpos
  have hroot : 0 ∈ o.scopes o.kept[k] := h.mem_scopes_iff.2
    ⟨0, h.rows.zero_mem_ancestors hrow (h.inside _ (List.getElem_mem hk)), h.first⟩
  obtain ⟨p, rest, hscopes⟩ := List.exists_cons_of_ne_nil (List.ne_nil_of_mem hroot)
  exact ⟨p, by rw [parentKey?, hi, Option.bind_some, hscopes, List.head?_cons]⟩

/-- A key with the parent before `k` is behind all keys below `k`. -/
theorem Ordered.parentKey?_ne (h : o.Ordered) {k l m p : Nat} (hkl : k < l) (hlm : l < m)
    (hp : o.parentKey? l = some p) (hpk : p < k) :
    o.parentKey? m ≠ some k := by
  intro hkm
  obtain ⟨i, -, hi, -, -, hnearest⟩ := h.parentKey?_eq_some hp
  obtain ⟨j, r, hj, hr, hmem, -⟩ := h.parentKey?_eq_some hkm
  refine h.rows.not_mem_ancestors_of_le ((h.row_lt_iff hr hi).2 hkl)
    (Nat.le_of_lt ((h.row_lt_iff hi hj).2 hlm)) (h.inside j (List.mem_of_getElem? hj)) ?_ hmem
  intro hri
  have hle := hnearest k (h.mem_scopes_iff.2 ⟨r, hri, hr⟩)
  omega

end Outline

end CodeGraph

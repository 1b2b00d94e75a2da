import CodeGraph.Proofs.Cst.Shape

/-!
# Copying depth first

A descent over a concrete syntax tree takes rows from a stack, each with the key of the nearest kept
row above it. A row that is kept becomes a node below that key, and its children wait with its own
key; a row that is not hands the key on to its children. When a descent comes to a row, the rows
that are pending there wait with the keys of their nearest kept rows, and the rows before it are
copied. So it makes the shape of the syntax tree (`descends_of_shape`).
-/

namespace CodeGraph.Outline

open Attempt Ast SyntaxTree

/-- The syntax tree that a descent over the rows on a stack makes of another. -/
inductive Descends (o : Outline) (includeAnonymous : Bool) :
    List (Nat × Option Nat) → SyntaxTree → SyntaxTree → Prop
  | done {t : SyntaxTree} : Descends o includeAnonymous [] t t
  | copy {i : Nat} {above : Option Nat} {rest : List (Nat × Option Nat)} {r : Cst.Row}
      {data : NodeData} {t t' : SyntaxTree} (hr : o.cst.rows[i]? = some r)
      (hkeep : r.keep includeAnonymous = true ∨ above = none) (hdata : o.nodeData i r = .ok data)
      (hrest : Descends o includeAnonymous
        ((o.cst.children i).map (·, some t.size) ++ rest) (t.addBelow data above) t') :
      Descends o includeAnonymous ((i, above) :: rest) t t'
  | skip {i parent : Nat} {rest : List (Nat × Option Nat)} {r : Cst.Row} {t t' : SyntaxTree}
      (hr : o.cst.rows[i]? = some r) (hdrop : r.keep includeAnonymous = false)
      (hrest : Descends o includeAnonymous
        ((o.cst.children i).map (·, some parent) ++ rest) t t') :
      Descends o includeAnonymous ((i, some parent) :: rest) t t'

/-- The rows that are pending at `k`, each with its nearest kept row above. -/
def waiting (o : Outline) (k : Nat) : List (Nat × Option Nat) :=
  (pending o.cst.parent? o.cst.size k).map fun j => (j.val, (o.scopes j.val).head?)

variable {o : Outline} {includeAnonymous : Bool} {t t' : SyntaxTree}

/-! ## What waits -/

theorem scopes_of_parent? {j k : Nat} (hlt : k < j) (hparent : o.cst.parent? j = some k) :
    o.scopes j = (k :: o.cst.ancestors k).filterMap o.key? := by
  rw [scopes, Cst.ancestors, hparent]
  simp only [hlt, if_true]

/-- With row `k` taken, its children wait with the key that is nearest to them. -/
theorem waiting_succ (ho : o.Ordered) {k : Nat} (hk : k < o.cst.size) :
    (o.cst.children k).map (·, (o.key? k).or (o.scopes k).head?) ++
      ((pending o.cst.parent? o.cst.size k).filter (fun j => k < j.val)).map
        (fun j => (j.val, (o.scopes j.val).head?)) = o.waiting (k + 1) := by
  have hrows := congrArg (List.map fun j => (j, (o.scopes j).head?))
    (ho.rows.children_append_pending hk)
  rw [List.map_append, List.map_map, List.map_map] at hrows
  refine Eq.trans (congrArg (· ++ _) ?_) hrows
  refine List.map_congr_left fun j hj => ?_
  have hparent := (Cst.mem_children_iff hk).1 hj
  rw [scopes_of_parent? (ho.rows.lt_of_parent? hparent) hparent, List.filterMap_cons]
  cases o.key? k <;> rfl

theorem waiting_eq_cons (ho : o.Ordered) {k : Nat} (hk : k < o.cst.size) :
    o.waiting k = (k, (o.scopes k).head?) ::
      ((pending o.cst.parent? o.cst.size k).filter (fun j => k < j.val)).map
        (fun j => (j.val, (o.scopes j.val).head?)) :=
  congrArg (List.map _) (ho.rows.preOrder.pending_eq_cons hk)

/-! ## The rows that are left -/

/-- Whether the kept rows before `k` are copied and `left` are the others. -/
structure Progress (o : Outline) (t : SyntaxTree) (k : Nat) (left : List Nat) : Prop where
  split : ∃ done, o.kept = done ++ left ∧ t.size = done.length ∧ ∀ i ∈ done, i < k
  ahead : ∀ i ∈ left, k ≤ i

variable {k : Nat} {left : List Nat}

theorem Progress.mem_kept (h : o.Progress t k left) {i : Nat} (hi : i ∈ left) : i ∈ o.kept := by
  obtain ⟨done, hsplit, -, -⟩ := h.split
  rw [hsplit]
  exact List.mem_append_right done hi

theorem Progress.copied (ho : o.Ordered) (h : o.Progress t k left) (hk : k ∈ o.kept) :
    ∃ later, left = k :: later ∧ o.key? k = some t.size ∧
      ∀ data above, o.Progress (t.addBelow data above) (k + 1) later := by
  obtain ⟨done, hsplit, hsize, hdone⟩ := h.split
  have hsorted : left.Pairwise (· < ·) :=
    ho.ascending.sublist (hsplit ▸ List.sublist_append_right done left)
  have hmem : k ∈ left := by
    rw [hsplit] at hk
    rcases List.mem_append.1 hk with hearlier | hlater
    · exact absurd (hdone k hearlier) (Nat.lt_irrefl k)
    · exact hlater
  obtain ⟨i, later, rfl⟩ := List.exists_cons_of_ne_nil (List.ne_nil_of_mem hmem)
  obtain ⟨hfirst, -⟩ := List.pairwise_cons.1 hsorted
  obtain rfl : i = k := by
    rcases List.mem_cons.1 hmem with heq | hlater
    · exact heq.symm
    · have hlt := hfirst k hlater
      have hle := h.ahead i List.mem_cons_self
      omega
  refine ⟨later, rfl, ?_, fun data above => ⟨⟨done ++ [i], ?_, ?_, ?_⟩, hfirst⟩⟩
  · rw [ho.keys, hsplit, hsize]
    simp
  · rw [hsplit, List.append_cons]
  · rw [size_addBelow, hsize, List.length_append, List.length_singleton]
  · intro j hj
    rcases List.mem_append.1 hj with hj | hj
    · exact Nat.lt_succ_of_lt (hdone j hj)
    · exact List.mem_singleton.1 hj ▸ Nat.lt_succ_self i

theorem Progress.skipped (h : o.Progress t k left) (hk : k ∉ o.kept) :
    o.Progress t (k + 1) left := by
  obtain ⟨done, hsplit, hsize, hdone⟩ := h.split
  refine ⟨⟨done, hsplit, hsize, fun i hi => Nat.lt_succ_of_lt (hdone i hi)⟩, fun i hi => ?_⟩
  have hne : i ≠ k := fun heq => hk (heq ▸ h.mem_kept hi)
  have hle := h.ahead i hi
  omega

theorem Progress.finished (ho : o.Ordered) (h : o.Progress t o.cst.size left) : left = [] := by
  refine List.eq_nil_iff_forall_not_mem.2 fun i hi => ?_
  exact Nat.lt_irrefl _ (Nat.lt_of_lt_of_le (ho.inside i (h.mem_kept hi)) (h.ahead i hi))

/-! ## The descent -/

theorem mem_kept_iff {c : Cst} {i : Nat} : i ∈ c.kept includeAnonymous ↔
    i < c.size ∧ (i = 0 ∨ ∃ r, c.rows[i]? = some r ∧ r.keep includeAnonymous = true) := by
  rw [Cst.kept, List.mem_filter, List.mem_range, Bool.or_eq_true, beq_iff_eq, Option.any_eq_true]

/-- From the rows that wait at `k`, a descent copies the kept rows that are left. -/
theorem descends_of_foldlM (ho : o.Ordered) (hkept : o.kept = o.cst.kept includeAnonymous)
    {steps : Nat} (hk : k + steps = o.cst.size) (hprogress : o.Progress t k left)
    (hadd : left.foldlM o.addRow t = .ok t') :
    o.Descends includeAnonymous (o.waiting k) t t' := by
  induction steps generalizing k left t with
  | zero =>
    obtain rfl : k = o.cst.size := by omega
    obtain rfl : left = [] := hprogress.finished ho
    cases hadd
    rw [waiting, pending_self]
    exact .done
  | succ steps ih =>
    have hlt : k < o.cst.size := by omega
    have hr : o.cst.rows[k]? = some o.cst.rows[k] := Array.getElem?_eq_getElem hlt
    have hwait := waiting_succ ho hlt
    rw [waiting_eq_cons ho hlt]
    by_cases hmem : k ∈ o.kept
    · obtain ⟨later, rfl, hkey, hnext⟩ := hprogress.copied ho hmem
      rw [List.foldlM_cons, bind_eq, bind_eq_ok_iff] at hadd
      obtain ⟨t₁, ht₁, hadd⟩ := hadd
      obtain ⟨data, hdata, rfl⟩ := addRow_eq_ok hr ht₁
      rw [hkey, Option.some_or] at hwait
      have hkeep : o.cst.rows[k].keep includeAnonymous = true ∨ (o.scopes k).head? = none := by
        obtain ⟨-, rfl | ⟨r, hrow, hkeep⟩⟩ := mem_kept_iff.1 (hkept ▸ hmem)
        · rw [scopes, ho.rows.ancestors_zero]
          exact .inr rfl
        · rw [hr] at hrow
          exact .inl (Option.some.inj hrow ▸ hkeep)
      refine .copy hr hkeep hdata ?_
      rw [hwait]
      exact ih (by omega) (hnext data _) hadd
    · -- A row that is dropped is not the root, so that it hands on the key of a row above it.
      have hpos : 0 < k := by
        refine Nat.pos_of_ne_zero fun hzero => hmem ?_
        rw [hzero]
        exact List.mem_of_getElem? ho.first
      have hroot : 0 ∈ o.scopes k :=
        ho.mem_scopes_iff.2 ⟨0, ho.rows.zero_mem_ancestors hpos hlt, ho.first⟩
      obtain ⟨parent, outer, hscopes⟩ := List.exists_cons_of_ne_nil (List.ne_nil_of_mem hroot)
      have hkey : o.key? k = none := by
        refine Option.eq_none_iff_forall_ne_some.2 fun key hkey => hmem ?_
        exact List.mem_of_getElem? ((ho.keys k key).1 hkey)
      have hdrop : o.cst.rows[k].keep includeAnonymous = false := by
        refine Bool.eq_false_iff.2 fun hkeep => hmem ?_
        rw [hkept, mem_kept_iff]
        exact ⟨hlt, .inr ⟨_, hr, hkeep⟩⟩
      rw [hkey, Option.none_or, hscopes, List.head?_cons] at hwait
      rw [hscopes, List.head?_cons]
      refine .skip hr hdrop ?_
      rw [hwait]
      exact ih (by omega) (hprogress.skipped hmem) hadd

theorem descends_of_shape (ho : o.Ordered) (hkept : o.kept = o.cst.kept includeAnonymous)
    {number : UInt32} {path : String} (h : o.shape number path = .ok t) :
    o.Descends includeAnonymous [(0, none)] ((SyntaxTree.empty number).setSourcePath path) t := by
  have hzero : (⟨0, ho.rows.nonempty⟩ : Fin o.cst.size).val = 0 := rfl
  have hroot : o.waiting 0 = [(0, none)] := by
    rw [waiting, ho.rows.preOrder.pending_zero hzero, List.map_singleton, scopes,
      ho.rows.ancestors_zero]
    rfl
  have hstart : o.Progress ((SyntaxTree.empty number).setSourcePath path) 0 o.kept :=
    ⟨⟨[], rfl, rfl, fun i hi => absurd hi List.not_mem_nil⟩, fun i _ => Nat.zero_le i⟩
  rw [← hroot]
  exact descends_of_foldlM ho hkept (Nat.zero_add _) hstart h

end CodeGraph.Outline

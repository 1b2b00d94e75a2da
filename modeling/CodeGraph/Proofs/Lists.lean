import Mathlib.Data.List.Basic

/-!
# Facts on lists

What lists give when they are searched, paired, filtered or flattened.
-/

namespace CodeGraph.Lists

variable {α β γ : Type}

/-! ## The first item -/

theorem findSome?_congr {f g : α → Option β} {xs : List α} (h : ∀ x ∈ xs, f x = g x) :
    xs.findSome? f = xs.findSome? g := by
  induction xs with
  | nil => rfl
  | cons x rest ih =>
    rw [List.findSome?_cons, List.findSome?_cons, h x List.mem_cons_self,
      ih fun y hy => h y (List.mem_cons_of_mem _ hy)]

theorem find?_congr {p q : α → Bool} {xs : List α} (h : ∀ x ∈ xs, p x = q x) :
    xs.find? p = xs.find? q := by
  induction xs with
  | nil => rfl
  | cons x rest ih =>
    rw [List.find?_cons, List.find?_cons, h x List.mem_cons_self,
      ih fun y hy => h y (List.mem_cons_of_mem _ hy)]

theorem findSome?_filterMap (f : α → Option β) (g : β → Option γ) (xs : List α) :
    (xs.filterMap f).findSome? g = xs.findSome? fun x => (f x).bind g := by
  induction xs with
  | nil => rfl
  | cons x rest ih =>
    rw [List.filterMap_cons, List.findSome?_cons, ← ih]
    cases f x <;> rfl

theorem findSome?_flatMap (f : α → List β) (g : β → Option γ) (xs : List α) :
    (xs.flatMap f).findSome? g = xs.findSome? fun x => (f x).findSome? g := by
  induction xs with
  | nil => rfl
  | cons x rest ih =>
    rw [List.flatMap_cons, List.findSome?_append, List.findSome?_cons, ih]
    cases (f x).findSome? g <;> rfl

theorem find?_filter_range_eq_some_iff {p q : Nat → Bool} {size i : Nat} :
    ((List.range size).filter p).find? q = some i ↔
      i < size ∧ p i = true ∧ q i = true ∧ ∀ j < i, p j = true → q j = false := by
  rw [List.find?_filter, List.find?_range_eq_some]
  simp only [List.mem_range, decide_eq_true_eq, Bool.not_eq_true', decide_eq_false_iff_not, not_and,
    Bool.not_eq_true]
  constructor
  · rintro ⟨⟨hp, hq⟩, hi, hfirst⟩
    exact ⟨hi, hp, hq, hfirst⟩
  · rintro ⟨hi, hp, hq, hfirst⟩
    exact ⟨⟨hp, hq⟩, hi, hfirst⟩

/-! ## Lists side by side -/

theorem exists_of_forall₂ {R : α → β → Prop} {xs : List α} {ys : List β}
    (h : List.Forall₂ R xs ys) {y : β} (hy : y ∈ ys) : ∃ x ∈ xs, R x y := by
  induction h with
  | nil => cases hy
  | @cons x _ _ _ hxy _ ih =>
    rcases List.mem_cons.1 hy with rfl | hy
    · exact ⟨x, List.mem_cons_self, hxy⟩
    · obtain ⟨z, hz, hzy⟩ := ih hy
      exact ⟨z, List.mem_cons_of_mem _ hz, hzy⟩

theorem forall₂_filterMap {R : α → β → Prop} {f : α → Option β} {xs : List α}
    (h : ∀ x ∈ xs, ∃ y, f x = some y ∧ R x y) : List.Forall₂ R xs (xs.filterMap f) := by
  induction xs with
  | nil => exact .nil
  | cons x rest ih =>
    obtain ⟨y, hy, hxy⟩ := h x List.mem_cons_self
    rw [List.filterMap_cons_some hy]
    exact .cons hxy (ih fun z hz => h z (List.mem_cons_of_mem _ hz))

theorem forall₂_filter_filterMap {R : α → β → Prop} {f : α → Option β} {xs : List α}
    (h : ∀ x ∈ xs, ∀ y, f x = some y → R x y) :
    List.Forall₂ R (xs.filter fun x => (f x).isSome) (xs.filterMap f) := by
  induction xs with
  | nil => exact .nil
  | cons x rest ih =>
    have hrest := ih fun z hz => h z (List.mem_cons_of_mem _ hz)
    cases hx : f x with
    | none =>
      rw [List.filterMap_cons_none hx, List.filter_cons_of_neg (by simp [hx])]
      exact hrest
    | some y =>
      rw [List.filterMap_cons_some hx, List.filter_cons_of_pos (by simp [hx])]
      exact .cons (h x List.mem_cons_self y hx) hrest

theorem getElem?_of_forall₂ {R : α → β → Prop} {xs : List α} {ys : List β}
    (h : List.Forall₂ R xs ys) {i : Nat} {x : α} (hx : xs[i]? = some x) :
    ∃ y, ys[i]? = some y ∧ R x y := by
  induction h generalizing i with
  | nil => cases hx
  | cons hxy _ ih =>
    cases i with
    | zero =>
      obtain rfl := Option.some.inj hx
      exact ⟨_, rfl, hxy⟩
    | succ i => exact ih hx

theorem forall₂_toList_getElem? {R : α → β → Prop} {xs : List α} {ys : List β}
    (h : List.Forall₂ R xs ys) (i : Nat) : List.Forall₂ R xs[i]?.toList ys[i]?.toList := by
  induction h generalizing i with
  | nil => exact .nil
  | cons hxy _ ih =>
    cases i with
    | zero => exact .cons hxy .nil
    | succ i => exact ih i

theorem forall₂_modify {R : α → β → Prop} {xs : List α} {ys : List β} {f : α → α} {g : β → β}
    (h : List.Forall₂ R xs ys) {i : Nat}
    (hfg : ∀ x y, xs[i]? = some x → R x y → R (f x) (g y)) :
    List.Forall₂ R (xs.modify i f) (ys.modify i g) := by
  induction h generalizing i with
  | nil => simp
  | cons hxy hrest ih =>
    cases i with
    | zero => exact .cons (hfg _ _ rfl hxy) hrest
    | succ i => exact .cons hxy (ih hfg)

theorem filterMap_getElem?_range (xs : List α) :
    (List.range xs.length).filterMap (xs[·]?) = xs := by
  induction xs with
  | nil => rfl
  | cons x rest ih =>
    rw [List.length_cons, List.range_succ_eq_map, List.filterMap_cons, List.filterMap_map]
    exact congrArg (x :: ·) ih

/-! ## At most one item -/

theorem find?_of_countP_le_one {p : α → Bool} {xs : List α} (h : xs.countP p ≤ 1)
    {x : α} (hx : x ∈ xs) (hp : p x = true) : xs.find? p = some x := by
  induction xs with
  | nil => cases hx
  | cons y rest ih =>
    rw [List.countP_cons] at h
    rw [List.find?_cons]
    cases hy : p y with
    | true =>
      rw [hy, if_pos rfl] at h
      rcases List.mem_cons.1 hx with rfl | hx
      · rfl
      · have := List.countP_pos_iff.2 ⟨x, hx, hp⟩
        omega
    | false =>
      rcases List.mem_cons.1 hx with rfl | hx
      · rw [hp] at hy
        cases hy
      · exact ih (by simpa [hy] using h) hx

theorem filter_flatMap_of_countP_le_one {p : α → Bool} {q : β → Bool}
    {f : α → List β} {xs : List α} (h : xs.countP p ≤ 1)
    (hskip : ∀ x ∈ xs, p x = false → (f x).filter q = []) :
    (xs.flatMap f).filter q = ((xs.find? p).map fun x => (f x).filter q).getD [] := by
  induction xs with
  | nil => rfl
  | cons y rest ih =>
    rw [List.countP_cons] at h
    rw [List.flatMap_cons, List.filter_append, List.find?_cons]
    cases hy : p y with
    | true =>
      rw [hy, if_pos rfl] at h
      have hnone : ∀ x ∈ rest, p x = false := fun x hx => by
        by_contra hp
        have := List.countP_pos_iff.2 ⟨x, hx, eq_true_of_ne_false hp⟩
        omega
      rw [List.filter_flatMap]
      have hrest : rest.flatMap (fun x => (f x).filter q) = [] := by
        rw [List.flatMap_eq_nil_iff]
        exact fun x hx => hskip x (List.mem_cons_of_mem _ hx) (hnone x hx)
      rw [hrest, List.append_nil]
      rfl
    | false =>
      rw [hskip y List.mem_cons_self hy, List.nil_append]
      exact ih (by simpa [hy] using h) fun x hx => hskip x (List.mem_cons_of_mem _ hx)

theorem filterMap_of_countP_le_one {p : α → Bool} {f : α → Option β} {xs : List α}
    (h : xs.countP p ≤ 1) (hskip : ∀ x ∈ xs, p x = false → f x = none) :
    xs.filterMap f = ((xs.find? p).bind f).toList := by
  have hall := filter_flatMap_of_countP_le_one (q := fun _ => true) (f := fun x => (f x).toList) h
    fun x hx hp => by simp [hskip x hx hp]
  rw [List.filter_true, ← List.filterMap_eq_flatMap_toList] at hall
  rw [hall]
  cases xs.find? p <;> simp

theorem flatMap_ite (p : α → Bool) (ys : List β) (xs : List α) :
    (xs.flatMap fun x => if p x then ys else []) = (List.replicate (xs.countP p) ys).flatten := by
  induction xs with
  | nil => rfl
  | cons x rest ih =>
    rw [List.flatMap_cons, ih, List.countP_cons]
    cases p x <;> simp [List.replicate_succ]

/-! ## Repeated items -/

section repeated

variable [BEq α] [LawfulBEq α]

theorem eraseDups_concat (xs : List α) (x : α) :
    (xs ++ [x]).eraseDups = if xs.contains x then xs.eraseDups else xs.eraseDups ++ [x] := by
  rw [List.eraseDups_append, List.removeAll, List.filter_singleton]
  by_cases hx : x ∈ xs <;> simp [hx, List.eraseDups_cons]

theorem nodup_eraseDups (xs : List α) : xs.eraseDups.Nodup := by
  induction hlength : xs.length using Nat.strongRecOn generalizing xs with
  | ind length ih =>
    cases xs with
    | nil => simp
    | cons x rest =>
      rw [List.eraseDups_cons, List.nodup_cons]
      refine ⟨by simp, ih _ ?_ _ rfl⟩
      have := List.length_filter_le (fun y => !y == x) rest
      rw [← hlength, List.length_cons]
      omega

end repeated

/-! ## Prefixes -/

theorem isPrefixOf?_append {α : Type} [BEq α] [ReflBEq α] (front rest : List α) :
    front.isPrefixOf? (front ++ rest) = some rest := by
  induction front with
  | nil => rfl
  | cons x front ih =>
    rw [List.cons_append, List.isPrefixOf?, if_pos (BEq.refl x), ih]

end CodeGraph.Lists

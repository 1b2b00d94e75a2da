import Mathlib.Data.List.Basic

/-!
# Computations that may fail

Small facts on `Except`, and `gather`, which collects what a function gives for the items of a list
until it fails.
-/

namespace CodeGraph.Attempt

variable {ε α β γ : Type}

theorem bind_eq (x : Except ε α) (f : α → Except ε β) : x >>= f = x.bind f := rfl

@[simp] theorem ok_bind (x : α) (f : α → Except ε β) : (Except.ok x).bind f = f x := rfl

@[simp] theorem error_bind (e : ε) (f : α → Except ε β) :
    (Except.error e).bind f = .error e := rfl

@[simp] theorem ok_map (x : α) (f : α → β) : (Except.ok x : Except ε α).map f = .ok (f x) := rfl

@[simp] theorem error_map (e : ε) (f : α → β) : (Except.error e).map f = .error e := rfl

theorem bind_eq_ok_iff {x : Except ε α} {f : α → Except ε β} {z : β} :
    x.bind f = .ok z ↔ ∃ y, x = .ok y ∧ f y = .ok z := by
  cases x <;> simp

theorem map_eq_ok_iff {x : Except ε α} {f : α → β} {z : β} :
    x.map f = .ok z ↔ ∃ y, x = .ok y ∧ f y = z := by
  cases x <;> simp

theorem bind_eq_error_iff {x : Except ε α} {f : α → Except ε β} {e : ε} :
    x.bind f = .error e ↔ x = .error e ∨ ∃ y, x = .ok y ∧ f y = .error e := by
  cases x <;> simp

theorem map_eq_error_iff {x : Except ε α} {f : α → β} {e : ε} :
    x.map f = .error e ↔ x = .error e := by
  cases x <;> simp

theorem mapError_eq_ok_iff {ε' : Type} {x : Except ε α} {f : ε → ε'} {y : α} :
    x.mapError f = .ok y ↔ x = .ok y := by
  cases x <;> simp [Except.mapError]

theorem mapError_eq_error_iff {ε' : Type} {x : Except ε α} {f : ε → ε'} {e : ε'} :
    x.mapError f = .error e ↔ ∃ e', x = .error e' ∧ f e' = e := by
  cases x <;> simp [Except.mapError]

theorem mapM_cons (f : α → Except ε β) (x : α) (rest : List α) :
    (x :: rest).mapM f = (f x).bind fun y => (rest.mapM f).map fun ys => y :: ys := by
  rw [List.mapM_cons, bind_eq]
  cases f x with
  | error e => rfl
  | ok y => cases rest.mapM f <;> rfl

theorem exists_foldlM {f : β → α → Except ε β} {xs : List α}
    (h : ∀ x ∈ xs, ∀ y, ∃ z, f y x = .ok z) (y : β) : ∃ z, xs.foldlM f y = .ok z := by
  induction xs generalizing y with
  | nil => exact ⟨y, rfl⟩
  | cons x rest ih =>
    obtain ⟨w, hw⟩ := h x List.mem_cons_self y
    obtain ⟨z, hz⟩ := ih (fun x hx => h x (List.mem_cons_of_mem _ hx)) w
    exact ⟨z, by rw [List.foldlM_cons, bind_eq, hw, ok_bind, hz]⟩

theorem foldlM_eq_ok_foldl {f : β → α → Except ε β} {g : β → α → β} {xs : List α}
    (h : ∀ x ∈ xs, ∀ y, f y x = .ok (g y x)) (y : β) : xs.foldlM f y = .ok (xs.foldl g y) := by
  induction xs generalizing y with
  | nil => rfl
  | cons x rest ih =>
    rw [List.foldlM_cons, bind_eq, h x List.mem_cons_self, ok_bind, List.foldl_cons]
    exact ih (fun x hx => h x (List.mem_cons_of_mem _ hx)) _

theorem mapM_map_eq_ok {encode : α → β} {decode : β → Except ε α} {xs : List α}
    (h : ∀ x ∈ xs, decode (encode x) = .ok x) : (xs.map encode).mapM decode = .ok xs := by
  induction xs with
  | nil => rfl
  | cons x rest ih =>
    rw [List.map_cons, mapM_cons, h x List.mem_cons_self, ok_bind,
      ih fun y hy => h y (List.mem_cons_of_mem _ hy), ok_map]

/-! ## Gathering -/

/-- What `f` gives for the items of a list in order, unless it fails for one of them. -/
def gather (f : α → Except ε (List β)) : List α → Except ε (List β)
  | [] => .ok []
  | x :: rest => (f x).bind fun ys => (gather f rest).map fun zs => ys ++ zs

theorem gather_singleton (f : α → Except ε β) (wrap : β → γ) (xs : List α) :
    gather (fun x => (f x).map fun y => [wrap y]) xs = (xs.mapM f).map (List.map wrap) := by
  induction xs with
  | nil => rfl
  | cons x rest ih =>
    rw [gather, mapM_cons, ih]
    cases f x with
    | error e => rfl
    | ok y => cases rest.mapM f <;> rfl

theorem mem_of_gather {f : α → Except ε (List β)} {xs : List α} {zs : List β}
    (h : gather f xs = .ok zs) {z : β} (hz : z ∈ zs) : ∃ x ∈ xs, ∃ ys, f x = .ok ys ∧ z ∈ ys := by
  induction xs generalizing zs with
  | nil =>
    cases h
    cases hz
  | cons x rest ih =>
    obtain ⟨ys, hys, h⟩ := bind_eq_ok_iff.1 h
    obtain ⟨later, hlater, rfl⟩ := map_eq_ok_iff.1 h
    rcases List.mem_append.1 hz with hz | hz
    · exact ⟨x, List.mem_cons_self, ys, hys, hz⟩
    · obtain ⟨y, hy, rest⟩ := ih hlater hz
      exact ⟨y, List.mem_cons_of_mem _ hy, rest⟩

theorem filterMap_gather {δ : Type} {f : α → Except ε (List β)} {xs : List α} {zs : List β}
    (h : gather f xs = .ok zs) (p : β → Option γ) (k : α → List δ) (q : δ → Option γ)
    (hitem : ∀ x ∈ xs, ∀ ys, f x = .ok ys → ys.filterMap p = (k x).filterMap q) :
    zs.filterMap p = (xs.flatMap k).filterMap q := by
  induction xs generalizing zs with
  | nil =>
    cases h
    rfl
  | cons x rest ih =>
    obtain ⟨ys, hys, h⟩ := bind_eq_ok_iff.1 h
    obtain ⟨later, hlater, rfl⟩ := map_eq_ok_iff.1 h
    rw [List.filterMap_append, List.flatMap_cons, List.filterMap_append,
      hitem x List.mem_cons_self ys hys,
      ih hlater fun y hy => hitem y (List.mem_cons_of_mem _ hy)]

/-- What is gathered from two functions that give the same for each item, as far as a filter keeps
it. -/
theorem exists_gather_eq {f g : α → Except ε (List β)} {xs : List α} {zs : List β}
    (h : gather f xs = .ok zs) {p : β → Option γ}
    (hitem : ∀ x ∈ xs, ∀ ys, f x = .ok ys → ∃ ws, g x = .ok ws ∧
      ys.filterMap p = ws.filterMap p) :
    ∃ ws, gather g xs = .ok ws ∧ zs.filterMap p = ws.filterMap p := by
  induction xs generalizing zs with
  | nil =>
    cases h
    exact ⟨[], rfl, rfl⟩
  | cons x rest ih =>
    obtain ⟨ys, hys, h⟩ := bind_eq_ok_iff.1 h
    obtain ⟨later, hlater, rfl⟩ := map_eq_ok_iff.1 h
    obtain ⟨us, hus, hfirst⟩ := hitem x List.mem_cons_self ys hys
    obtain ⟨vs, hvs, hrest⟩ := ih hlater fun y hy => hitem y (List.mem_cons_of_mem _ hy)
    refine ⟨us ++ vs, ?_, ?_⟩
    · rw [gather, hus, ok_bind, hvs, ok_map]
    · rw [List.filterMap_append, List.filterMap_append, hfirst, hrest]

/-! ## The failure -/

/-- What a computation failed with. -/
def failure? : Except ε α → Option ε
  | .error e => some e
  | .ok _ => none

theorem failure?_eq_some_iff {x : Except ε α} {e : ε} : failure? x = some e ↔ x = .error e := by
  cases x <;> simp [failure?]

theorem failure?_eq_none_iff {x : Except ε α} : failure? x = none ↔ ∃ y, x = .ok y := by
  cases x <;> simp [failure?]

theorem failure?_map (x : Except ε α) (f : α → β) : failure? (x.map f) = failure? x := by
  cases x <;> rfl

theorem failure?_gather (f : α → Except ε (List β)) (xs : List α) :
    failure? (gather f xs) = xs.findSome? fun x => failure? (f x) := by
  induction xs with
  | nil => rfl
  | cons x rest ih =>
    rw [gather, List.findSome?_cons, ← ih]
    cases f x with
    | error e => rfl
    | ok ys => exact failure?_map _ _

theorem exists_of_gather_eq_ok {f : α → Except ε (List β)} {xs : List α} {zs : List β}
    (h : gather f xs = .ok zs) : ∀ x ∈ xs, ∃ ys, f x = .ok ys := by
  intro x hx
  have hnone : failure? (gather f xs) = none := failure?_eq_none_iff.2 ⟨zs, h⟩
  rw [failure?_gather, List.findSome?_eq_none_iff] at hnone
  exact failure?_eq_none_iff.1 (hnone x hx)

theorem exists_of_gather_eq_error {f : α → Except ε (List β)} {xs : List α} {e : ε}
    (h : gather f xs = .error e) : ∃ x ∈ xs, f x = .error e := by
  rw [← failure?_eq_some_iff, failure?_gather] at h
  obtain ⟨x, hx, hfails⟩ := List.exists_of_findSome?_eq_some h
  exact ⟨x, hx, failure?_eq_some_iff.1 hfails⟩

theorem failure?_mapM (f : α → Except ε β) (xs : List α) :
    failure? (xs.mapM f) = xs.findSome? fun x => failure? (f x) := by
  induction xs with
  | nil => rfl
  | cons x rest ih =>
    rw [mapM_cons, List.findSome?_cons, ← ih]
    cases f x with
    | error e => rfl
    | ok y => exact failure?_map _ _

end CodeGraph.Attempt

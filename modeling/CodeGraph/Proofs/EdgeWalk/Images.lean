import CodeGraph.Proofs.Ast.Image
import CodeGraph.Proofs.EdgeWalk.Changes

/-!
# The edge walk over an image

Two walks over a structure and its image, whose caches lead to other handles, make the same changes
but for the handles and for the relations that are not kept (`shows_changesWithin`). If all
relations are kept and the caches know the same nodes, the walks also fail alike.
-/

namespace CodeGraph

namespace Attempt

variable {ε α β γ : Type}

/-- Whether one computation gives what a filter makes of what another gives; and also fails with
what that one fails with, if it is to be exact. -/
def Shows (exact : Prop) (p : β → Option γ) (x : Except ε (List β)) (y : Except ε (List γ)) :
    Prop :=
  (∀ zs, x = .ok zs → y = .ok (zs.filterMap p)) ∧ (exact → ∀ e, x = .error e → y = .error e)

theorem shows_ok {exact : Prop} {p : β → Option γ} {ys : List β} {zs : List γ}
    (h : ys.filterMap p = zs) : Shows exact p (.ok ys : Except ε (List β)) (.ok zs) := by
  refine ⟨fun xs hxs => ?_, fun _ e he => by cases he⟩
  cases hxs
  rw [h]

theorem shows_error {exact : Prop} {p : β → Option γ} {e : ε} {y : Except ε (List γ)}
    (h : exact → y = .error e) : Shows exact p (.error e) y := by
  constructor
  · intro zs hzs
    cases hzs
  · intro hexact e' he
    rw [h hexact, Except.error.inj he]

theorem shows_gather {exact : Prop} {p : β → Option γ} {f : α → Except ε (List β)}
    {g : α → Except ε (List γ)} {xs : List α} (h : ∀ x ∈ xs, Shows exact p (f x) (g x)) :
    Shows exact p (gather f xs) (gather g xs) := by
  induction xs with
  | nil => exact shows_ok rfl
  | cons x rest ih =>
    have hrest := ih fun y hy => h y (List.mem_cons_of_mem _ hy)
    have hx := h x List.mem_cons_self
    unfold gather
    cases hf : f x with
    | error e => exact shows_error fun hexact => by rw [hx.2 hexact e hf, error_bind]
    | ok ys =>
      rw [hx.1 ys hf, ok_bind, ok_bind]
      refine ⟨fun zs hzs => ?_, fun hexact e he => ?_⟩
      · obtain ⟨later, hlater, rfl⟩ := map_eq_ok_iff.1 hzs
        rw [hrest.1 later hlater, ok_map, List.filterMap_append]
      · rw [hrest.2 hexact e (map_eq_error_iff.1 he), error_map]

theorem gather_map (f : β → Except ε (List γ)) (k : α → β) (xs : List α) :
    gather f (xs.map k) = gather (fun x => f (k x)) xs := by
  induction xs with
  | nil => rfl
  | cons x rest ih => rw [List.map_cons, gather, gather, ih]

theorem gather_filter (f : α → Except ε (List β)) (q : α → Bool) (xs : List α) :
    gather f (xs.filter q) = gather (fun x => if q x then f x else .ok []) xs := by
  induction xs with
  | nil => rfl
  | cons x rest ih =>
    rw [gather, ← ih]
    by_cases hx : q x = true
    · rw [List.filter_cons_of_pos hx, if_pos hx, gather]
    · rw [List.filter_cons_of_neg hx, if_neg hx, ok_bind]
      cases gather f (rest.filter q) <;> rfl

end Attempt

namespace EdgeWalk

open Attempt

/-- What becomes of a change where only some relations are kept and handles are others. -/
def Change.image? (keep : Relation → Bool) (move : Nat → Nat) : Change → Option Change
  | edge relation source target =>
    if keep relation then some (.edge relation (move source) (move target)) else none
  | reference vertex names => if keep .type then some (.reference (move vertex) names) else none

/-- Whether the cache of an image leads to the handles that belong to those of another cache. If it
is to be exact, it leads nowhere else. -/
structure CacheImage {n m : Nat} {keep : Relation → Bool} {a : Ast n} {b : Ast m}
    (f : Ast.Image keep a b) (exact : Prop) (move : Nat → Nat)
    (vertexOf vertexOf' : NodeId → Option Nat) : Prop where
  cached : ∀ i handle, vertexOf (a.identity i) = some handle →
    vertexOf' (b.identity (f.node i)) = some (move handle)
  missing : exact → ∀ i, vertexOf (a.identity i) = none →
    vertexOf' (b.identity (f.node i)) = none
  all : exact → ∀ relation, keep relation = true

variable {n m : Nat} {keep : Relation → Bool} {a : Ast n} {b : Ast m} {f : Ast.Image keep a b}
  {exact : Prop} {move : Nat → Nat} {vertexOf vertexOf' : NodeId → Option Nat}

section walk

variable (hcache : CacheImage f exact move vertexOf vertexOf')

include hcache

theorem resolve_image {relation : Relation} {source : String} {i : Fin n} {handle : Nat}
    (h : resolve a vertexOf relation source i = .ok handle) :
    resolve b vertexOf' relation source (f.node i) = .ok (move handle) :=
  resolve_eq_ok_iff.2 (hcache.cached i handle (resolve_eq_ok_iff.1 h))

theorem resolve_image_error (hexact : exact) {relation : Relation} {source : String} {i : Fin n}
    {e : ConversionError} (h : resolve a vertexOf relation source i = .error e) :
    resolve b vertexOf' relation source (f.node i) = .error e := by
  unfold resolve at h ⊢
  cases hi : vertexOf (a.identity i) with
  | some handle =>
    rw [hi] at h
    cases h
  | none =>
    rw [hi] at h
    rw [hcache.missing hexact i hi, ← h, f.kind]

theorem shows_resolve_bind {β γ : Type} {p : β → Option γ} {relation : Relation} {source : String}
    {i : Fin n} {k : Nat → Except ConversionError (List β)}
    {k' : Nat → Except ConversionError (List γ)}
    (h : ∀ handle, Shows exact p (k handle) (k' (move handle))) :
    Shows exact p ((resolve a vertexOf relation source i).bind k)
      ((resolve b vertexOf' relation source (f.node i)).bind k') := by
  cases hres : resolve a vertexOf relation source i with
  | ok handle =>
    rw [resolve_image hcache hres]
    exact h handle
  | error e =>
    exact shows_error fun hexact => by rw [resolve_image_error hcache hexact hres, error_bind]

omit hcache in
theorem mapM_typeName_image (source : String) (targets : List (Fin n)) :
    (targets.map f.node).mapM (typeName b source) = targets.mapM (typeName a source) := by
  rw [List.mapM_map]
  congr 1
  funext i
  unfold typeName
  rw [Function.comp_apply, f.name?, f.kind]

theorem shows_entryChanges {below : Fin n → Except ConversionError (List Change)}
    {below' : Fin m → Except ConversionError (List Change)}
    (hbelow : ∀ child, Shows exact (Change.image? keep move) (below child)
      (below' (f.node child)))
    (i : Fin n) (vertex : Nat) {relation : Relation} (hrel : keep relation = true)
    (targets : List (Fin n)) :
    Shows exact (Change.image? keep move)
      (entryChanges a vertexOf below i vertex (relation, targets))
      (entryChanges b vertexOf' below' (f.node i) (move vertex)
        (relation, targets.map f.node)) := by
  by_cases hs : relation = .structural
  · subst hs
    simp only [entryChanges]
    rw [gather_map, f.kind]
    apply shows_gather
    intro child _
    apply shows_resolve_bind hcache
    intro handle
    refine ⟨fun zs hzs => ?_, fun hexact e he => ?_⟩
    · obtain ⟨changes, hchanges, rfl⟩ := map_eq_ok_iff.1 hzs
      rw [(hbelow child).1 changes hchanges]
      simp [Change.image?, hrel]
    · rw [(hbelow child).2 hexact e (map_eq_error_iff.1 he), error_map]
  · by_cases ht : relation = .type
    · subst ht
      simp only [entryChanges]
      rw [f.kind, mapM_typeName_image]
      cases targets.mapM (typeName a (a.kind i)) with
      | error e => exact shows_error fun _ => rfl
      | ok names => exact shows_ok (by simp [Change.image?, hrel])
    · rw [entryChanges_semantic hs ht, entryChanges_semantic hs ht, gather_map, f.kind]
      apply shows_gather
      intro target _
      apply shows_resolve_bind hcache
      intro handle
      exact shows_ok (by simp [Change.image?, hrel])

omit hcache in
theorem filterMap_image?_entryChanges {below : Fin n → Except ConversionError (List Change)}
    {i : Fin n} {vertex : Nat} {relation : Relation} (hrel : keep relation = false)
    (hs : relation ≠ .structural) {targets : List (Fin n)} {changes : List Change}
    (h : entryChanges a vertexOf below i vertex (relation, targets) = .ok changes) :
    changes.filterMap (Change.image? keep move) = [] := by
  by_cases ht : relation = .type
  · subst ht
    obtain ⟨names, -, rfl⟩ := map_eq_ok_iff.1 h
    simp [Change.image?, hrel]
  · rw [entryChanges_semantic hs ht] at h
    rw [List.filterMap_eq_nil_iff]
    intro change hchange
    obtain ⟨target, -, ys, hys, hmem⟩ := mem_of_gather h hchange
    obtain ⟨handle, -, rfl⟩ := map_eq_ok_iff.1 hys
    rw [List.mem_singleton.1 hmem]
    simp [Change.image?, hrel]

/-- The changes of a walk over an image are the images of the changes. -/
theorem shows_changesWithin (hkeep : keep .structural = true) (depth : Nat) (i : Fin n) :
    Shows exact (Change.image? keep move) (changesWithin a vertexOf depth i)
      (changesWithin b vertexOf' depth (f.node i)) := by
  induction depth generalizing i with
  | zero => exact shows_error fun _ => by rw [changesWithin, f.kind]
  | succ depth ih =>
    unfold changesWithin
    rw [f.kind]
    apply shows_resolve_bind hcache
    intro vertex
    rw [f.links, gather_map, gather_filter]
    apply shows_gather
    rintro ⟨relation, targets⟩ -
    by_cases hrel : keep relation = true
    · rw [if_pos hrel]
      exact shows_entryChanges hcache ih i vertex hrel targets
    · rw [if_neg hrel]
      have hs : relation ≠ .structural := fun heq => hrel (heq ▸ hkeep)
      refine ⟨fun zs hzs => ?_, fun hexact => absurd (hcache.all hexact relation) hrel⟩
      rw [filterMap_image?_entryChanges (by simpa using hrel) hs hzs]

theorem shows_changes (hkeep : keep .structural = true) (root : Fin n) :
    Shows exact (Change.image? keep move) (changesWithin a vertexOf (n + 1) root)
      (changesWithin b vertexOf' (m + 1) (f.node root)) := by
  have hdepth : m + 1 = n + 1 := by rw [f.size]
  rw [hdepth]
  exact shows_changesWithin hcache hkeep (n + 1) root

end walk

end EdgeWalk

end CodeGraph

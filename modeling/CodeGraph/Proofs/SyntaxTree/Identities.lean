import CodeGraph.Proofs.SyntaxTree.Histories
import CodeGraph.Proofs.SyntaxTree.View

/-!
# Identities across trees

Trees are numbered as they are created, and a copy has the number of what it was copied from. So a
tree's number tells which creation it stems from (`hasNumberOf_originsOf`), as long as the numbers
do not start again. An identity keeps the number and the key apart, and two nodes share one if and
only if they have one key in trees that stem from one creation (`identity_eq_iff_origin`).
-/

namespace CodeGraph.SyntaxTree

variable {t u : SyntaxTree}

/-! ## Number and key -/

theorem toNat_identity (t : SyntaxTree) {key : Nat} (h : key < UInt32.size) :
    (t.identity key).toNat = t.number.toNat * UInt32.size + key := by
  calc (t.identity key).toNat
      = (t.identity key).toNat / UInt32.size * UInt32.size +
          (t.identity key).toNat % UInt32.size := (Nat.div_add_mod' _ _).symm
    _ = t.number.toNat * UInt32.size + key := by
        rw [toNat_identity_div, toNat_identity_mod, Nat.mod_eq_of_lt h]

/-! ## Creations -/

/-- Whether a call creates a tree. To copy one is not to create one. -/
def TreeCall.creates : TreeCall → Bool
  | create => true
  | _ => false

/-- How many trees calls create. -/
def createdBy (calls : List TreeCall) : Nat := calls.countP (·.creates)

/-- What the trees stem from after one more call, which is made at `place`. -/
def TreeCall.origins (origins : List Nat) (place : Nat) : TreeCall → List Nat
  | create => origins ++ [place]
  | clone i => origins ++ origins[i]?.toList
  | edit _ _ => origins

/-- The creation that each tree stems from, at once or through copies, by its place among the
calls. -/
def originsOf (calls : List TreeCall) : List Nat :=
  calls.zipIdx.foldl (fun origins entry => entry.1.origins origins entry.2) []

variable {calls : List TreeCall} {place : Nat}

theorem originsOf_concat (calls : List TreeCall) (call : TreeCall) :
    originsOf (calls ++ [call]) = call.origins (originsOf calls) calls.length := by
  rw [originsOf, List.zipIdx_append, List.foldl_append, ← originsOf]
  simp

theorem createdBy_concat (calls : List TreeCall) (call : TreeCall) :
    createdBy (calls ++ [call]) = createdBy calls + if call.creates then 1 else 0 := by
  rw [createdBy, List.countP_append, List.countP_singleton, createdBy]

theorem created_runTreeCalls {α : Type} (new : Nat → α) (next : α → Edit → α)
    (calls : List TreeCall) : (runTreeCalls new next calls).created = createdBy calls := by
  induction calls using List.reverseRecOn with
  | nil => rfl
  | append_singleton calls call ih =>
    rw [runTreeCalls, List.foldl_concat, ← runTreeCalls, createdBy_concat, ← ih]
    cases call <;> rfl

theorem createdBy_take_lt {p q : Nat} (hp : calls[p]? = some .create) (hlt : p < q) :
    createdBy (calls.take p) < createdBy (calls.take q) := by
  calc createdBy (calls.take p)
      < createdBy (calls.take (p + 1)) := by
        rw [List.take_add_one, hp, Option.toList_some, createdBy_concat]
        exact Nat.lt_succ_self _
    _ ≤ createdBy (calls.take q) := (List.take_sublist_take_left hlt).countP_le

/-- How many creations come before one tells which it is. -/
theorem createdBy_take_inj {p q : Nat} (hp : calls[p]? = some .create)
    (hq : calls[q]? = some .create) (h : createdBy (calls.take p) = createdBy (calls.take q)) :
    p = q := by
  rcases Nat.lt_trichotomy p q with hlt | heq | hlt
  · exact absurd h (Nat.ne_of_lt (createdBy_take_lt hp hlt))
  · exact heq
  · exact absurd h (Nat.ne_of_gt (createdBy_take_lt hq hlt))

theorem createdBy_take_lt_createdBy (h : calls[place]? = some .create) :
    createdBy (calls.take place) < createdBy calls := by
  have hlt := createdBy_take_lt h (List.getElem?_eq_some_iff.1 h).1
  rwa [List.take_length] at hlt

/-! ## The numbers of trees -/

/-- Whether a tree has the number that the creation at a place gives. -/
structure HasNumberOf (calls : List TreeCall) (t : SyntaxTree) (place : Nat) : Prop where
  create : calls[place]? = some .create
  number : t.number = UInt32.ofNat (createdBy (calls.take place))

theorem number_apply (t : SyntaxTree) (e : Edit) : (e.apply t).number = t.number := by
  cases e with
  | addChild parent child =>
    rw [Edit.apply, SyntaxTree.addChild]
    split <;> rfl
  | _ => rfl

theorem HasNumberOf.apply (h : HasNumberOf calls t place) (e : Edit) :
    HasNumberOf calls (e.apply t) place where
  create := h.create
  number := (number_apply t e).trans h.number

theorem HasNumberOf.append (h : HasNumberOf calls t place) (later : List TreeCall) :
    HasNumberOf (calls ++ later) t place := by
  have hlt := (List.getElem?_eq_some_iff.1 h.create).1
  constructor
  · rw [List.getElem?_append_left hlt, h.create]
  · rw [List.take_append_of_le_length (Nat.le_of_lt hlt), h.number]

theorem hasNumberOf_empty (calls : List TreeCall) :
    HasNumberOf (calls ++ [.create]) (empty (UInt32.ofNat (createdBy calls))) calls.length where
  create := List.getElem?_concat_length
  number := by rw [List.take_left, empty]

theorem hasNumberOf_originsOf (calls : List TreeCall) :
    List.Forall₂ (HasNumberOf calls) (treesOf calls) (originsOf calls) := by
  induction calls using List.reverseRecOn with
  | nil => exact .nil
  | append_singleton calls call ih =>
    have hbefore : List.Forall₂ (HasNumberOf (calls ++ [call])) (treesOf calls) (originsOf calls) :=
      ih.imp fun t place h => h.append [call]
    rw [treesOf, runTreeCalls, List.foldl_concat, ← runTreeCalls, originsOf_concat]
    cases call with
    | create =>
      rw [TreeCall.run, created_runTreeCalls]
      exact List.rel_append hbefore (.cons (hasNumberOf_empty calls) .nil)
    | clone i => exact List.rel_append hbefore (Lists.forall₂_toList_getElem? hbefore i)
    | edit i e =>
      -- An edit changes a tree and leaves its origin.
      have hedited := Lists.forall₂_modify (f := (e.apply ·)) (g := id) (i := i) hbefore
        fun t place _ h => h.apply e
      rwa [List.modify_id] at hedited

theorem HasNumberOf.number_eq_iff {p q : Nat} (ht : HasNumberOf calls t p)
    (hu : HasNumberOf calls u q) (hcreated : createdBy calls ≤ UInt32.size) :
    t.number = u.number ↔ p = q := by
  constructor
  · intro h
    have hp := Nat.lt_of_lt_of_le (createdBy_take_lt_createdBy ht.create) hcreated
    have hq := Nat.lt_of_lt_of_le (createdBy_take_lt_createdBy hu.create) hcreated
    have hnumber := congrArg UInt32.toNat h
    rw [ht.number, hu.number, UInt32.toNat_ofNat_of_lt' hp, UInt32.toNat_ofNat_of_lt' hq] at hnumber
    exact createdBy_take_inj ht.create hu.create hnumber
  · rintro rfl
    rw [ht.number, hu.number]

/-- **Identities.** Let calls create at most 2^32 trees and let none of these grow beyond 2^32
nodes. An identity then is the number of the tree above the key, with nothing lost. Two nodes, of
one tree or of two, share an identity if and only if they have one key and their trees stem from one
creation, through copies or not. -/
theorem identity_eq_iff_origin (calls : List TreeCall) (hcreated : createdBy calls ≤ UInt32.size)
    (hsize : ∀ t ∈ treesOf calls, t.size ≤ UInt32.size) (i j : Nat) (t u : SyntaxTree)
    (ht : (treesOf calls)[i]? = some t) (hu : (treesOf calls)[j]? = some u) (k l : Nat)
    (hk : k < t.size) (hl : l < u.size) :
    (t.identity k).toNat = t.number.toNat * UInt32.size + k ∧
    (t.identity k = u.identity l ↔ k = l ∧ ∃ place, calls[place]? = some .create ∧
      (originsOf calls)[i]? = some place ∧ (originsOf calls)[j]? = some place) := by
  have hkey : k < UInt32.size := Nat.lt_of_lt_of_le hk (hsize t (List.mem_of_getElem? ht))
  have hother : l < UInt32.size := Nat.lt_of_lt_of_le hl (hsize u (List.mem_of_getElem? hu))
  obtain ⟨p, hp, hnumber⟩ := Lists.getElem?_of_forall₂ (hasNumberOf_originsOf calls) ht
  obtain ⟨q, hq, hnumber'⟩ := Lists.getElem?_of_forall₂ (hasNumberOf_originsOf calls) hu
  refine ⟨t.toNat_identity hkey, ?_⟩
  rw [identity_eq_iff, hnumber.number_eq_iff hnumber' hcreated, Nat.mod_eq_of_lt hkey,
    Nat.mod_eq_of_lt hother, hp, hq]
  constructor
  · rintro ⟨rfl, rfl⟩
    exact ⟨rfl, p, hnumber.create, rfl, rfl⟩
  · rintro ⟨rfl, place, -, hplace, hplace'⟩
    exact ⟨(Option.some.inj hplace).trans (Option.some.inj hplace').symm, rfl⟩

/-- Two trees with a node each. The first is copied, and the copy grows. -/
def copiedCalls : List TreeCall :=
  let leaf : NodeData := ⟨"Leaf", "", false, none, none⟩
  [.create, .edit 0 (.addNode leaf), .create, .clone 0, .edit 1 (.addNode leaf),
    .edit 2 (.addNode leaf)]

theorem identity_eq_iff_origin_copiedCalls :
    createdBy copiedCalls = 2 ∧ originsOf copiedCalls = [0, 2, 0] ∧
    ∃ t u copy, treesOf copiedCalls = [t, u, copy] ∧ copy.size = 2 ∧
      (u.identity 0).toNat = UInt32.size ∧ t.identity 0 = copy.identity 0 ∧
      t.identity 0 ≠ u.identity 0 ∧ t.identity 0 ≠ copy.identity 1 := by
  have hcreated : createdBy copiedCalls ≤ UInt32.size := by decide
  have hsize : ∀ t ∈ treesOf copiedCalls, t.size ≤ UInt32.size := by decide
  have horigins : originsOf copiedCalls = [0, 2, 0] := by decide
  have hall := identity_eq_iff_origin copiedCalls hcreated hsize
  rw [horigins] at hall
  refine ⟨by decide, horigins, _, _, _, rfl, rfl, ?value, ?same, ?other, ?grown⟩
  case value => exact (hall 1 1 _ _ rfl rfl 0 0 (by decide) (by decide)).1
  case same =>
    exact (hall 0 2 _ _ rfl rfl 0 0 (by decide) (by decide)).2.2 ⟨rfl, 0, rfl, rfl, rfl⟩
  case other =>
    intro h
    obtain ⟨-, place, -, hfirst, hsecond⟩ :=
      (hall 0 1 _ _ rfl rfl 0 0 (by decide) (by decide)).2.1 h
    rw [← hfirst] at hsecond
    exact absurd hsecond (by decide)
  case grown =>
    intro h
    exact absurd ((hall 0 2 _ _ rfl rfl 0 1 (by decide) (by decide)).2.1 h).1 (by decide)

end CodeGraph.SyntaxTree

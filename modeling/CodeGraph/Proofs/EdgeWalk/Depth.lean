import CodeGraph.Proofs.EdgeWalk.Changes
import Mathlib.Data.Fintype.Card
import Mathlib.Order.Monotone.Basic

/-!
# How deep an edge walk goes

A recursion that ends at some depth gives the same at any greater depth, and then already at the
depth above the number of nodes (`changesWithin_of_ended`): the nodes at which it ends within a
depth grow with the depth, and once they stop growing they have stopped for good.
-/

namespace CodeGraph.EdgeWalk

open Attempt

variable {n : Nat} {α β : Type}

/-- Whether something was found before the depth was used up. -/
def Ended (x : Except ConversionError α) : Prop := ∀ kind, x ≠ .error (.endless kind)

theorem ended_ok (y : α) : Ended (.ok y : Except ConversionError α) := fun _ h => by cases h

theorem Ended.of_bind {x : Except ConversionError α} {f : α → Except ConversionError β}
    (h : Ended (x.bind f)) : Ended x := by
  rintro kind rfl
  exact h kind rfl

theorem Ended.bind {x : Except ConversionError α} {f : α → Except ConversionError β} (h : Ended x)
    (hf : ∀ y, x = .ok y → Ended (f y)) : Ended (x.bind f) := by
  cases x with
  | error e =>
    intro kind he
    exact h kind (congrArg _ (Except.error.inj he))
  | ok y => exact hf y rfl

theorem ended_map {x : Except ConversionError α} {f : α → β} : Ended (x.map f) ↔ Ended x := by
  cases x <;> simp [Ended]

theorem gather_eq_of_ended {f g : α → Except ConversionError (List β)} {xs : List α}
    (hfg : ∀ x, Ended (f x) → g x = f x) (h : Ended (gather f xs)) : gather g xs = gather f xs := by
  induction xs with
  | nil => rfl
  | cons x rest ih =>
    rw [gather] at h
    rw [gather, gather, hfg x h.of_bind]
    cases hx : f x with
    | error e => rfl
    | ok ys =>
      rw [hx, ok_bind, ended_map] at h
      rw [ok_bind, ok_bind, ih h]

variable {a : Ast n} {vertexOf : NodeId → Option Nat}

theorem entryChanges_eq_of_ended {below below' : Fin n → Except ConversionError (List Change)}
    (hbelow : ∀ child, Ended (below child) → below' child = below child) {i : Fin n}
    {vertex : Nat} {entry : Relation × List (Fin n)}
    (h : Ended (entryChanges a vertexOf below i vertex entry)) :
    entryChanges a vertexOf below' i vertex entry =
      entryChanges a vertexOf below i vertex entry := by
  obtain ⟨relation, targets⟩ := entry
  cases relation with
  | structural =>
    refine gather_eq_of_ended (fun child hchild => ?_) h
    cases hres : resolve a vertexOf .structural (a.kind i) child with
    | error e => rfl
    | ok handle =>
      rw [hres, ok_bind, ended_map] at hchild
      rw [ok_bind, ok_bind, hbelow child hchild]
  | _ => rfl

theorem nodeChanges_eq_of_ended {below below' : Fin n → Except ConversionError (List Change)}
    (hbelow : ∀ child, Ended (below child) → below' child = below child) {i : Fin n}
    (h : Ended ((resolve a vertexOf .structural (a.kind i) i).bind fun vertex =>
      gather (entryChanges a vertexOf below i vertex) (a.links i))) :
    ((resolve a vertexOf .structural (a.kind i) i).bind fun vertex =>
      gather (entryChanges a vertexOf below' i vertex) (a.links i)) =
    (resolve a vertexOf .structural (a.kind i) i).bind fun vertex =>
      gather (entryChanges a vertexOf below i vertex) (a.links i) := by
  cases hres : resolve a vertexOf .structural (a.kind i) i with
  | error e => rfl
  | ok vertex =>
    rw [hres, ok_bind] at h
    exact gather_eq_of_ended (fun _ hentry => entryChanges_eq_of_ended hbelow hentry) h

theorem changesWithin_succ_of_ended {depth : Nat} {i : Fin n}
    (h : Ended (changesWithin a vertexOf depth i)) :
    changesWithin a vertexOf (depth + 1) i = changesWithin a vertexOf depth i := by
  induction depth generalizing i with
  | zero => exact absurd rfl (h (a.kind i))
  | succ depth ih =>
    rw [changesWithin] at h
    rw [changesWithin, nodeChanges_eq_of_ended (fun _ hchild => ih hchild) h, changesWithin]

theorem changesWithin_add_of_ended {depth : Nat} {i : Fin n}
    (h : Ended (changesWithin a vertexOf depth i)) (more : Nat) :
    changesWithin a vertexOf (depth + more) i = changesWithin a vertexOf depth i := by
  induction more with
  | zero => rfl
  | succ more ih =>
    rw [← ih] at h
    rw [Nat.add_succ, changesWithin_succ_of_ended h, ih]

/-! ## The depth that is enough -/

section enough

variable (a vertexOf)

open Classical in
/-- The nodes at which the recursion ends within a depth. -/
noncomputable def endedWithin (depth : Nat) : Finset (Fin n) :=
  Finset.univ.filter fun i => Ended (changesWithin a vertexOf depth i)

theorem mem_endedWithin {depth : Nat} {i : Fin n} :
    i ∈ endedWithin a vertexOf depth ↔ Ended (changesWithin a vertexOf depth i) := by
  simp only [endedWithin, Finset.mem_filter, Finset.mem_univ, true_and]

theorem endedWithin_subset_succ (depth : Nat) :
    endedWithin a vertexOf depth ⊆ endedWithin a vertexOf (depth + 1) := by
  intro i hi
  rw [mem_endedWithin] at hi ⊢
  rwa [changesWithin_succ_of_ended hi]

/-- A depth that adds no node is followed by another one. -/
theorem endedWithin_stable {depth : Nat}
    (h : endedWithin a vertexOf depth = endedWithin a vertexOf (depth + 1)) :
    endedWithin a vertexOf (depth + 1) = endedWithin a vertexOf (depth + 2) := by
  refine Finset.Subset.antisymm (endedWithin_subset_succ a vertexOf _) fun i hi => ?_
  rw [mem_endedWithin] at hi ⊢
  have hbelow : ∀ child, Ended (changesWithin a vertexOf (depth + 1) child) →
      changesWithin a vertexOf depth child = changesWithin a vertexOf (depth + 1) child := by
    intro child hchild
    rw [← mem_endedWithin, ← h, mem_endedWithin] at hchild
    exact (changesWithin_succ_of_ended hchild).symm
  rw [changesWithin] at hi
  rwa [changesWithin, nodeChanges_eq_of_ended hbelow hi]

theorem endedWithin_subset (depth : Nat) :
    endedWithin a vertexOf depth ⊆ endedWithin a vertexOf n := by
  have hmono : Monotone (endedWithin a vertexOf) :=
    monotone_nat_of_le_succ (endedWithin_subset_succ a vertexOf)
  have hcard : (endedWithin a vertexOf (depth + n)).card = (endedWithin a vertexOf n).card := by
    refine Nat.stabilises_of_monotone (fun d e hde => Finset.card_le_card (hmono hde))
      (fun d => ?_) (fun d hd => ?_) (Nat.le_add_left n depth)
    · exact (Finset.card_le_univ _).trans_eq (Fintype.card_fin n)
    · have := Finset.eq_of_subset_of_card_le (endedWithin_subset_succ a vertexOf d) hd.ge
      rw [endedWithin_stable a vertexOf this]
  have heq := Finset.eq_of_subset_of_card_le (hmono (Nat.le_add_left n depth)) hcard.le
  rw [heq]
  exact hmono (Nat.le_add_right depth n)

end enough

/-- No recursion that ends needs to go deeper than there are nodes. -/
theorem changesWithin_of_ended {depth : Nat} {i : Fin n}
    (h : Ended (changesWithin a vertexOf depth i)) :
    changesWithin a vertexOf (n + 1) i = changesWithin a vertexOf depth i := by
  have hn : Ended (changesWithin a vertexOf n i) :=
    (mem_endedWithin a vertexOf).1
      (endedWithin_subset a vertexOf depth ((mem_endedWithin a vertexOf).2 h))
  calc changesWithin a vertexOf (n + 1) i
      = changesWithin a vertexOf n i := changesWithin_succ_of_ended hn
    _ = changesWithin a vertexOf (n + depth) i := (changesWithin_add_of_ended hn depth).symm
    _ = changesWithin a vertexOf depth i := by
      rw [Nat.add_comm, changesWithin_add_of_ended h n]

end CodeGraph.EdgeWalk

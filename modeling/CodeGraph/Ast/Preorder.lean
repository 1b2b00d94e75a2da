import CodeGraph.Ast.Basic
import Std.Data.TreeSet

/-!
# Pre-order

`preorder root` lists `root` and what can be reached through children, depth first, a node before
its children and the children in order. A node is listed each time it is reached, but its children
only follow the first time its identity is met, so that a cycle does not keep the walk going.
-/

namespace CodeGraph.Ast

variable {n : Nat}

abbrev Seen := Std.TreeSet NodeId

/-- How many nodes have an identity that was not met yet. -/
def unseen (a : Ast n) (seen : Seen) : Nat :=
  (List.finRange n).countP fun i => !seen.contains (a.identity i)

theorem countP_lt_countP {α : Type} {p q : α → Bool} {l : List α} {x : α}
    (himp : ∀ y, q y = true → p y = true) (hx : x ∈ l) (hp : p x = true) (hq : q x = false) :
    l.countP q < l.countP p := by
  induction l with
  | nil => simp at hx
  | cons y rest ih =>
    have hrest : rest.countP q ≤ rest.countP p := List.countP_mono_left fun y _ => himp y
    rw [List.countP_cons, List.countP_cons]
    rcases List.mem_cons.1 hx with rfl | hx
    · simp only [hp, hq, if_true, Bool.false_eq_true, if_false]
      omega
    · have hlt := ih hx
      cases hqy : q y with
      | false => simp only [Bool.false_eq_true, if_false]; omega
      | true => simp only [himp y hqy, if_true]; omega

theorem unseen_insert_lt (a : Ast n) {seen : Seen} {i : Fin n}
    (h : ¬ seen.contains (a.identity i) = true) :
    a.unseen (seen.insert (a.identity i)) < a.unseen seen := by
  have fresh : seen.contains (a.identity i) = false := Bool.eq_false_iff.2 h
  refine countP_lt_countP (fun j hj => ?_) (List.mem_finRange i) (by rw [fresh]; rfl) (by simp)
  simp only [Bool.not_eq_true', Std.TreeSet.contains_insert, Bool.or_eq_false_iff] at hj
  simp [hj.2]

/-- Walks on with the pending nodes `stack`, behind the nodes `out` that are listed already. -/
def preorderFrom (a : Ast n) (stack : List (Fin n)) (seen : Seen) (out : Array (Fin n)) :
    Array (Fin n) :=
  match stack with
  | [] => out
  | i :: rest =>
    if seen.contains (a.identity i) then preorderFrom a rest seen (out.push i)
    else preorderFrom a (a.children i ++ rest) (seen.insert (a.identity i)) (out.push i)
termination_by (a.unseen seen, stack.length)
decreasing_by
  · exact Prod.Lex.right _ (by simp)
  · exact Prod.Lex.left _ _ (a.unseen_insert_lt ‹_›)

/-- `root` and the nodes below it in pre-order, each as often as it is reached. -/
def preorder (a : Ast n) (root : Fin n) : List (Fin n) := (a.preorderFrom [root] ∅ #[]).toList

end CodeGraph.Ast

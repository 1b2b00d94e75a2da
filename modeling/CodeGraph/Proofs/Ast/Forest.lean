import CodeGraph.Ast.Preorder
import Mathlib.Data.Fintype.Card

/-!
# Forests in pre-order

`Spans roots nodes` says that the nodes reached from `roots` through children form a forest, and
that `nodes` lists it in pre-order. If the nodes that `preorder` lists have different identities,
they span the tree under the root (`spans_preorder`): no node was met twice, so the children of each
were entered.
-/

namespace CodeGraph.Ast

variable {n : Nat}

/-- The trees below `roots` end, and `nodes` lists their nodes in pre-order. -/
inductive Spans (a : Ast n) : List (Fin n) → List (Fin n) → Prop
  | nil : Spans a [] []
  | cons {i : Fin n} {rest below others : List (Fin n)} (hbelow : Spans a (a.children i) below)
      (hothers : Spans a rest others) : Spans a (i :: rest) (i :: (below ++ others))

/-! ## What a walk lists -/

theorem contains_insert_iff {seen : Seen} {id other : NodeId} :
    (seen.insert id).contains other = true ↔ id = other ∨ seen.contains other = true := by
  rw [Std.TreeSet.contains_insert, Bool.or_eq_true, beq_iff_eq, Std.LawfulEqCmp.compare_eq_iff_eq]

section listed

variable (a : Ast n)

/-- The nodes that a walk lists from pending nodes on. -/
def listed (stack : List (Fin n)) (seen : Seen) : List (Fin n) :=
  (a.preorderFrom stack seen #[]).toList

theorem toList_preorderFrom (stack : List (Fin n)) (seen : Seen) (out : Array (Fin n)) :
    (a.preorderFrom stack seen out).toList = out.toList ++ a.listed stack seen := by
  suffices h : ∃ nodes, ∀ out, (a.preorderFrom stack seen out).toList = out.toList ++ nodes by
    obtain ⟨nodes, h⟩ := h
    rw [listed, h, h]
    rfl
  induction stack, seen, out using preorderFrom.induct a with
  | case1 seen out => exact ⟨[], fun out => by simp [preorderFrom]⟩
  | case2 seen out i rest hseen ih =>
    obtain ⟨nodes, ih⟩ := ih
    refine ⟨i :: nodes, fun out => ?_⟩
    rw [preorderFrom, if_pos hseen, ih]
    simp
  | case3 seen out i rest hseen ih =>
    obtain ⟨nodes, ih⟩ := ih
    refine ⟨i :: nodes, fun out => ?_⟩
    rw [preorderFrom, if_neg hseen, ih]
    simp

theorem listed_nil (seen : Seen) : a.listed [] seen = [] := by
  rw [listed, preorderFrom]

theorem listed_cons_seen {i : Fin n} {seen : Seen} (h : seen.contains (a.identity i) = true)
    (rest : List (Fin n)) : a.listed (i :: rest) seen = i :: a.listed rest seen := by
  rw [listed, preorderFrom, if_pos h, toList_preorderFrom]
  rfl

theorem listed_cons_fresh {i : Fin n} {seen : Seen} (h : ¬ seen.contains (a.identity i) = true)
    (rest : List (Fin n)) :
    a.listed (i :: rest) seen =
      i :: a.listed (a.children i ++ rest) (seen.insert (a.identity i)) := by
  rw [listed, preorderFrom, if_neg h, toList_preorderFrom]
  rfl

/-- Induction along a walk: over the end, a node whose identity was met, and a node that is
entered. -/
@[elab_as_elim]
theorem walk_induct {motive : List (Fin n) → Seen → Prop} (nil : ∀ seen, motive [] seen)
    (skip : ∀ i rest seen, seen.contains (a.identity i) = true → motive rest seen →
      motive (i :: rest) seen)
    (enter : ∀ i rest seen, ¬ seen.contains (a.identity i) = true →
      motive (a.children i ++ rest) (seen.insert (a.identity i)) → motive (i :: rest) seen)
    (stack : List (Fin n)) (seen : Seen) : motive stack seen := by
  refine preorderFrom.induct a (fun stack seen _ => motive stack seen) ?nil ?skip ?enter stack seen
    #[]
  case nil => exact fun seen _ => nil seen
  case skip => exact fun seen _ i rest hseen ih => skip i rest seen hseen ih
  case enter => exact fun seen _ i rest hseen ih => enter i rest seen hseen ih

theorem preorder_eq_listed (root : Fin n) : a.preorder root = a.listed [root] ∅ := rfl

theorem mem_preorder_self (root : Fin n) : root ∈ a.preorder root := by
  rw [preorder_eq_listed, listed_cons_fresh a (by simp)]
  exact List.mem_cons_self

end listed

/-! ## Forests -/

variable {a : Ast n}

theorem Spans.of_append {xs ys nodes : List (Fin n)} (h : Spans a (xs ++ ys) nodes) :
    ∃ us vs, nodes = us ++ vs ∧ Spans a xs us ∧ Spans a ys vs := by
  induction xs generalizing nodes with
  | nil => exact ⟨[], nodes, rfl, .nil, h⟩
  | cons x xs ih =>
    obtain _ | ⟨hbelow, hothers⟩ := h
    obtain ⟨us, vs, rfl, hus, hvs⟩ := ih hothers
    exact ⟨_, vs, by simp, .cons hbelow hus, hvs⟩

theorem Spans.root_mem {roots nodes : List (Fin n)} (h : Spans a roots nodes) :
    ∀ i ∈ roots, i ∈ nodes := by
  induction h with
  | nil => exact fun i hi => hi
  | cons hbelow hothers ihBelow ihOthers =>
    intro j hj
    rcases List.mem_cons.1 hj with rfl | hj
    · exact List.mem_cons_self
    · exact List.mem_cons_of_mem _ (List.mem_append_right _ (ihOthers j hj))

theorem Spans.exists_root {roots nodes : List (Fin n)} (h : Spans a roots nodes) {i : Fin n}
    (hi : i ∈ nodes) : ∃ root, root ∈ roots := by
  cases h with
  | nil => exact absurd hi List.not_mem_nil
  | cons hbelow hothers => exact ⟨_, List.mem_cons_self⟩

theorem Spans.child_mem {roots nodes : List (Fin n)} (h : Spans a roots nodes) :
    ∀ i ∈ nodes, ∀ child ∈ a.children i, child ∈ nodes := by
  induction h with
  | nil => exact fun i hi => absurd hi List.not_mem_nil
  | cons hbelow hothers ihBelow ihOthers =>
    intro j hj child hchild
    rw [List.mem_cons, List.mem_append]
    rcases List.mem_cons.1 hj with rfl | hj
    · exact .inr (.inl (hbelow.root_mem child hchild))
    · rcases List.mem_append.1 hj with hj | hj
      · exact .inr (.inl (ihBelow j hj child hchild))
      · exact .inr (.inr (ihOthers j hj child hchild))

theorem spans_listed {stack : List (Fin n)} {seen : Seen}
    (hnodup : ((a.listed stack seen).map a.identity).Nodup)
    (hfresh : ∀ i ∈ a.listed stack seen, ¬ seen.contains (a.identity i) = true) :
    Spans a stack (a.listed stack seen) := by
  induction stack, seen using a.walk_induct with
  | nil seen =>
    rw [listed_nil]
    exact .nil
  | skip i rest seen hseen ih =>
    rw [listed_cons_seen a hseen] at hfresh
    exact absurd hseen (hfresh i List.mem_cons_self)
  | enter i rest seen hseen ih =>
    rw [listed_cons_fresh a hseen] at hnodup hfresh ⊢
    rw [List.map_cons, List.nodup_cons] at hnodup
    have hdeeper := ih hnodup.2 fun j hj => ?_
    · obtain ⟨below, others, heq, hbelow, hothers⟩ := hdeeper.of_append
      rw [heq]
      exact .cons hbelow hothers
    · rw [contains_insert_iff, not_or]
      refine ⟨fun heq => hnodup.1 ?_, hfresh j (List.mem_cons_of_mem _ hj)⟩
      exact List.mem_map.2 ⟨j, hj, heq.symm⟩

theorem spans_preorder {root : Fin n} (h : ((a.preorder root).map a.identity).Nodup) :
    Spans a [root] (a.preorder root) :=
  spans_listed h fun i _ => by simp

theorem length_le_of_nodup {nodes : List (Fin n)} (h : (nodes.map a.identity).Nodup) :
    nodes.length ≤ n := by
  have := h.of_map.length_le_card
  rwa [Fintype.card_fin] at this

end CodeGraph.Ast

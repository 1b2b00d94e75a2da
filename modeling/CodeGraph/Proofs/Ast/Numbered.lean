import CodeGraph.Proofs.Ast.Forest
import Mathlib.Data.List.Sort

/-!
# Nodes numbered in pre-order

Numbers are given in pre-order if the parent of each is smaller and nothing comes below a number
that was left (`PreOrder`). A walk that has come to `k` then has the numbers from `k` on in its
stack whose parents are before `k`: these are the children of `k` and what was pending behind it
(`PreOrder.children_append`). So if the children of each node are the nodes that have it as their
parent, in order, a walk from the first node lists all nodes as they are numbered
(`Numbered.preorder_eq`).
-/

namespace CodeGraph.Ast

variable {n : Nat}

/-- Whether numbers are given in pre-order, by the parents of what they number. -/
structure PreOrder (parent : Nat → Option Nat) (n : Nat) : Prop where
  top : parent 0 = none
  parents : ∀ k, 0 < k → k < n → ∃ p < k, parent k = some p
  noReturn : ∀ k l m p, k < l → l < m → m < n → parent l = some p → p < k → parent m ≠ some k

/-- What makes a structure a tree numbered in pre-order, by the parents of its nodes. -/
structure Numbered (a : Ast n) (parent : Nat → Option Nat) : Prop where
  distinct : ∀ i j, a.identity i = a.identity j → i = j
  children : ∀ i, a.children i = (List.finRange n).filter (parent ·.val == some i.val)
  top : parent 0 = none
  parents : ∀ k, 0 < k → k < n → ∃ p < k, parent k = some p
  noReturn : ∀ k l m p, k < l → l < m → parent l = some p → p < k → parent m ≠ some k

/-! ## What is pending -/

/-- The nodes from `k` on that are not below another of these. -/
def pending (parent : Nat → Option Nat) (n k : Nat) : List (Fin n) :=
  (List.finRange n).filter fun j => k ≤ j.val && (parent j).all (· < k)

variable {a : Ast n} {parent : Nat → Option Nat}

theorem mem_pending {k : Nat} {j : Fin n} :
    j ∈ pending parent n k ↔ k ≤ j.val ∧ ∀ p, parent j = some p → p < k := by
  simp [pending, Option.all_eq_true]

theorem pairwise_pending (parent : Nat → Option Nat) (n k : Nat) :
    (pending parent n k).Pairwise (· < ·) :=
  (List.pairwise_lt_finRange n).filter _

theorem PreOrder.pending_eq_cons (h : PreOrder parent n) {k : Nat} (hk : k < n) :
    pending parent n k =
      ⟨k, hk⟩ :: (pending parent n k).filter (fun j => k < j.val) := by
  refine (pairwise_pending parent n k).eq_of_mem_iff ?_ fun j => ?_
  · refine List.pairwise_cons.2 ⟨fun j hj => ?_, (pairwise_pending parent n k).filter _⟩
    exact of_decide_eq_true (List.mem_filter.1 hj).2
  · rw [List.mem_cons, List.mem_filter, decide_eq_true_eq]
    constructor
    · intro hj
      rcases Nat.eq_or_lt_of_le (mem_pending.1 hj).1 with heq | hlt
      · exact .inl (Fin.ext heq.symm)
      · exact .inr ⟨hj, hlt⟩
    · rintro (rfl | ⟨hj, -⟩)
      · refine mem_pending.2 ⟨Nat.le_refl k, fun p hp => ?_⟩
        rcases Nat.eq_zero_or_pos k with rfl | hpos
        · rw [h.top] at hp
          cases hp
        · obtain ⟨q, hq, hparent⟩ := h.parents k hpos hk
          rw [hparent] at hp
          exact Option.some.inj hp ▸ hq
      · exact hj

theorem PreOrder.children_append (h : PreOrder parent n) {k : Nat} (hk : k < n) :
    (List.finRange n).filter (parent ·.val == some k) ++
      (pending parent n k).filter (fun j => k < j.val) = pending parent n (k + 1) := by
  have hchild : ∀ j : Fin n,
      j ∈ (List.finRange n).filter (parent ·.val == some k) ↔ parent j = some k := fun j => by
    simp
  have hrest : ∀ j, j ∈ (pending parent n k).filter (fun j => k < j.val) ↔
      (k ≤ j.val ∧ ∀ p, parent j = some p → p < k) ∧ k < j.val := fun j => by
    rw [List.mem_filter, mem_pending, decide_eq_true_eq]
  have hsome : ∀ j : Fin n, k < j.val → ∃ p < j.val, parent j = some p := fun j hj =>
    h.parents j (Nat.lt_of_le_of_lt (Nat.zero_le k) hj) j.isLt
  have hbehind : ∀ j : Fin n, parent j = some k → k < j.val := fun j hj => by
    rcases Nat.eq_zero_or_pos j.val with hzero | hpos
    · rw [hzero, h.top] at hj
      cases hj
    · obtain ⟨p, hp, hparent⟩ := h.parents j hpos j.isLt
      rw [hparent] at hj
      exact Option.some.inj hj ▸ hp
  refine List.Pairwise.eq_of_mem_iff ?_ (pairwise_pending parent n (k + 1)) fun j => ?_
  · refine List.pairwise_append.2 ⟨?_, (pairwise_pending parent n k).filter _, ?_⟩
    · exact (List.pairwise_lt_finRange n).filter _
    · intro c hc r hr
      obtain ⟨⟨-, hlt⟩, hkr⟩ := (hrest r).1 hr
      rw [hchild] at hc
      obtain ⟨p, -, hp⟩ := hsome r hkr
      have hne : r ≠ c := fun heq => by
        rw [heq] at hlt
        exact Nat.lt_irrefl _ (hlt k hc)
      -- Else `r` would stand between `k` and its child, though it is below a node before `k`.
      by_contra hcr
      have hrc : r.val < c.val := by
        have := Fin.val_ne_of_ne hne
        omega
      exact h.noReturn k r c p hkr hrc c.isLt hp (hlt p hp) hc
  · rw [List.mem_append, hchild, hrest, mem_pending]
    constructor
    · rintro (hj | ⟨⟨-, hlt⟩, hkj⟩)
      · refine ⟨hbehind j hj, fun p hp => ?_⟩
        rw [hj] at hp
        cases hp
        exact Nat.lt_succ_self k
      · exact ⟨hkj, fun p hp => Nat.lt_succ_of_lt (hlt p hp)⟩
    · rintro ⟨hkj, hlt⟩
      obtain ⟨p, -, hp⟩ := hsome j hkj
      rcases Nat.lt_succ_iff_lt_or_eq.1 (hlt p hp) with hpk | rfl
      · refine .inr ⟨⟨Nat.le_of_lt hkj, fun q hq => ?_⟩, hkj⟩
        rw [hp] at hq
        exact Option.some.inj hq ▸ hpk
      · exact .inl hp

theorem PreOrder.pending_zero (h : PreOrder parent n) {root : Fin n} (hroot : root.val = 0) :
    pending parent n 0 = [root] := by
  refine (pairwise_pending parent n 0).eq_of_mem_iff (List.pairwise_singleton _ _) fun j => ?_
  rw [mem_pending, List.mem_singleton]
  constructor
  · rintro ⟨-, hj⟩
    rcases Nat.eq_zero_or_pos j.val with hzero | hpos
    · exact Fin.ext (hzero.trans hroot.symm)
    · obtain ⟨p, -, hp⟩ := h.parents j hpos j.isLt
      exact absurd (hj p hp) (Nat.not_lt_zero p)
  · rintro rfl
    refine ⟨Nat.zero_le _, fun p hp => ?_⟩
    rw [hroot, h.top] at hp
    cases hp

theorem pending_self (parent : Nat → Option Nat) (n : Nat) : pending parent n n = [] := by
  refine List.eq_nil_iff_forall_not_mem.2 fun j hj => ?_
  have hle := (mem_pending.1 hj).1
  omega

/-! ## The walk -/

theorem Numbered.preOrder (h : a.Numbered parent) : PreOrder parent n where
  top := h.top
  parents := h.parents
  noReturn k l m p hkl hlm _ := h.noReturn k l m p hkl hlm

/-- From pending nodes, the nodes are listed as they are numbered. -/
theorem Numbered.listed_pending (h : a.Numbered parent) {k rest : Nat} (hk : k + rest = n)
    {seen : Seen} (hseen : ∀ i : Fin n, seen.contains (a.identity i) = true ↔ i.val < k) :
    a.listed (pending parent n k) seen = (List.finRange n).drop k := by
  -- The induction is on how many nodes are left; the stack is always what is pending.
  induction rest generalizing k seen with
  | zero =>
    obtain rfl : k = n := by omega
    rw [pending_self, listed_nil, List.drop_eq_nil_of_le (by simp)]
  | succ rest ih =>
    have hlt : k < n := by omega
    have hdrop : (List.finRange n).drop k = ⟨k, hlt⟩ :: (List.finRange n).drop (k + 1) := by
      rw [List.drop_eq_getElem_cons (by simpa)]
      simp
    rw [h.preOrder.pending_eq_cons hlt,
      listed_cons_fresh a (by rw [hseen]; exact Nat.lt_irrefl k), h.children,
      h.preOrder.children_append hlt, hdrop, ih (by omega) fun i => ?_]
    · rw [contains_insert_iff, hseen]
      constructor
      · rintro (heq | hlt)
        · rw [← h.distinct _ _ heq]
          exact Nat.lt_succ_self k
        · exact Nat.lt_succ_of_lt hlt
      · intro hi
        rcases Nat.lt_succ_iff_lt_or_eq.1 hi with hi | hi
        · exact .inr hi
        · exact .inl (congrArg a.identity (Fin.ext hi.symm))

theorem Numbered.preorder_eq (h : a.Numbered parent) {root : Fin n} (hroot : root.val = 0) :
    a.preorder root = List.finRange n := by
  rw [preorder_eq_listed, ← h.preOrder.pending_zero hroot,
    h.listed_pending (Nat.zero_add n) (by simp), List.drop_zero]

end CodeGraph.Ast

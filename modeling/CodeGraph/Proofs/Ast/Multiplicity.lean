import CodeGraph.Proofs.Ast.Forest
import CodeGraph.Proofs.SyntaxTree.View
import Mathlib.Algebra.GroupWithZero.Nat
import Mathlib.Algebra.Order.BigOperators.Group.Finset
import Mathlib.Logic.Relation

/-!
# How often a node is listed

A walk lists what it started from and the children of each node it enters (`Entered.perm`), and it
enters one node of each identity that it meets. Where nodes of one identity have the same children,
the nodes entered stand for all that can be reached. So an identity is listed once for the root and
once for each place among the children of the reached nodes, and none is listed twice if and only if
what is reached is a tree (`count_preorder`).
-/

namespace CodeGraph.Ast

variable {n : Nat}

/-- The identities of a node's children in order. -/
def childIds (a : Ast n) (i : Fin n) : List NodeId := (a.children i).map a.identity

/-- Whether nodes of one identity have children of the same identities, as nodes with the same
relations have. -/
def Consistent (a : Ast n) : Prop :=
  ∀ i j, a.identity i = a.identity j → a.childIds i = a.childIds j

/-- Whether a node can be reached through children. -/
def Reaches (a : Ast n) : Fin n → Fin n → Prop := Relation.ReflTransGen fun i j => j ∈ a.children i

open Classical in
/-- The nodes that can be reached, and of those with one identity the first. -/
noncomputable def reached (a : Ast n) (root : Fin n) : Finset (Fin n) :=
  Finset.univ.filter fun i =>
    a.Reaches root i ∧ ∀ j < i, a.Reaches root j → a.identity j ≠ a.identity i

/-- Whether what can be reached is a tree: the root is nobody's child, and every other node is a
child of one node, once. -/
structure IsTree (a : Ast n) (root : Fin n) : Prop where
  top : ∀ i, a.Reaches root i → a.identity root ∉ a.childIds i
  parent : ∀ i, a.Reaches root i → a.identity i ≠ a.identity root →
    ∃ p, a.Reaches root p ∧ (a.childIds p).count (a.identity i) = 1 ∧
      ∀ q, a.Reaches root q → a.identity i ∈ a.childIds q → a.identity q = a.identity p

/-! ## What a walk enters -/

/-- What holds of the nodes `entered` whose children a walk from pending nodes on lists. -/
structure Entered (a : Ast n) (stack : List (Fin n)) (seen : Seen) (entered : List (Fin n)) :
    Prop where
  perm : (a.listed stack seen).Perm (stack ++ entered.flatMap a.children)
  distinct : (entered.map a.identity).Nodup
  fresh : ∀ i ∈ entered, ¬ seen.contains (a.identity i) = true
  listed : ∀ i ∈ entered, i ∈ a.listed stack seen
  met : ∀ i ∈ a.listed stack seen,
    seen.contains (a.identity i) = true ∨ a.identity i ∈ entered.map a.identity

variable {a : Ast n} {stack rest entered : List (Fin n)} {seen : Seen} {i root : Fin n}

theorem entered_nil (a : Ast n) (seen : Seen) : a.Entered [] seen [] where
  perm := by rw [listed_nil]; exact .refl _
  distinct := .nil
  fresh _ h := absurd h List.not_mem_nil
  listed _ h := absurd h List.not_mem_nil
  met _ h := by rw [listed_nil] at h; exact absurd h List.not_mem_nil

theorem Entered.skip (h : a.Entered rest seen entered)
    (hi : seen.contains (a.identity i) = true) : a.Entered (i :: rest) seen entered where
  perm := by
    rw [listed_cons_seen a hi]
    exact h.perm.cons i
  distinct := h.distinct
  fresh := h.fresh
  listed j hj := by
    rw [listed_cons_seen a hi]
    exact List.mem_cons_of_mem _ (h.listed j hj)
  met j hj := by
    rw [listed_cons_seen a hi] at hj
    rcases List.mem_cons.1 hj with rfl | hj
    · exact .inl hi
    · exact h.met j hj

theorem Entered.enter (h : a.Entered (a.children i ++ rest) (seen.insert (a.identity i)) entered)
    (hi : ¬ seen.contains (a.identity i) = true) : a.Entered (i :: rest) seen (i :: entered) where
  perm := by
    rw [listed_cons_fresh a hi, List.flatMap_cons, List.cons_append]
    refine (h.perm.trans ?_).cons i
    rw [List.append_assoc, ← List.append_assoc rest]
    refine List.perm_append_comm.trans ?_
    rw [List.append_assoc, List.append_assoc]
    exact List.perm_append_comm.append_left rest
  distinct := by
    rw [List.map_cons, List.nodup_cons]
    refine ⟨fun hmem => ?_, h.distinct⟩
    obtain ⟨j, hj, heq⟩ := List.mem_map.1 hmem
    exact h.fresh j hj (contains_insert_iff.2 (.inl heq.symm))
  fresh j hj := by
    rcases List.mem_cons.1 hj with rfl | hj
    · exact hi
    · exact fun hseen => h.fresh j hj (contains_insert_iff.2 (.inr hseen))
  listed j hj := by
    rw [listed_cons_fresh a hi]
    rcases List.mem_cons.1 hj with rfl | hj
    · exact List.mem_cons_self
    · exact List.mem_cons_of_mem _ (h.listed j hj)
  met j hj := by
    rw [listed_cons_fresh a hi] at hj
    rw [List.map_cons, List.mem_cons]
    rcases List.mem_cons.1 hj with rfl | hj
    · exact .inr (.inl rfl)
    · rcases h.met j hj with hseen | hmem
      · rcases contains_insert_iff.1 hseen with heq | hseen
        · exact .inr (.inl heq.symm)
        · exact .inl hseen
      · exact .inr (.inr hmem)

theorem exists_entered (a : Ast n) (stack : List (Fin n)) (seen : Seen) :
    ∃ entered, a.Entered stack seen entered := by
  induction stack, seen using a.walk_induct with
  | nil seen => exact ⟨[], a.entered_nil seen⟩
  | skip i rest seen hseen ih =>
    obtain ⟨entered, h⟩ := ih
    exact ⟨entered, h.skip hseen⟩
  | enter i rest seen hseen ih =>
    obtain ⟨entered, h⟩ := ih
    exact ⟨i :: entered, h.enter hseen⟩

/-! ## What a walk reaches -/

theorem reaches_of_mem_listed {j : Fin n} (h : j ∈ a.listed stack seen) :
    ∃ i ∈ stack, a.Reaches i j := by
  induction stack, seen using a.walk_induct with
  | nil seen =>
    rw [listed_nil] at h
    exact absurd h List.not_mem_nil
  | skip i rest seen hseen ih =>
    rw [listed_cons_seen a hseen] at h
    rcases List.mem_cons.1 h with rfl | h
    · exact ⟨j, List.mem_cons_self, .refl⟩
    · obtain ⟨k, hk, hreach⟩ := ih h
      exact ⟨k, List.mem_cons_of_mem _ hk, hreach⟩
  | enter i rest seen hseen ih =>
    rw [listed_cons_fresh a hseen] at h
    rcases List.mem_cons.1 h with rfl | h
    · exact ⟨j, List.mem_cons_self, .refl⟩
    · obtain ⟨k, hk, hreach⟩ := ih h
      rcases List.mem_append.1 hk with hk | hk
      · exact ⟨i, List.mem_cons_self, .head hk hreach⟩
      · exact ⟨k, List.mem_cons_of_mem _ hk, hreach⟩

theorem reaches_of_mem_preorder {j : Fin n} (h : j ∈ a.preorder root) : a.Reaches root j := by
  obtain ⟨i, hi, hreach⟩ := reaches_of_mem_listed (a.preorder_eq_listed root ▸ h)
  exact List.mem_singleton.1 hi ▸ hreach

theorem Entered.identity_mem (h : a.Entered [root] ∅ entered) {j : Fin n}
    (hj : j ∈ a.preorder root) : a.identity j ∈ entered.map a.identity :=
  (h.met j hj).resolve_left (by simp)

/-- Where nodes of one identity have the same children, a walk meets all that can be reached. -/
theorem identity_mem_of_reaches (ha : a.Consistent) {j : Fin n} (h : a.Reaches root j) :
    a.identity j ∈ (a.preorder root).map a.identity := by
  obtain ⟨entered, hentered⟩ := a.exists_entered [root] ∅
  induction h with
  | refl => exact List.mem_map_of_mem (a.mem_preorder_self root)
  | @tail i j _ hchild ih =>
    obtain ⟨k, hk, heq⟩ := List.mem_map.1 ih
    obtain ⟨e, he, hid⟩ := List.mem_map.1 (hentered.identity_mem hk)
    -- The node entered need not be `i`, but it has a child of the identity of `j`.
    have hsame : a.childIds e = a.childIds i := ha e i (hid.trans heq)
    have hmem : a.identity j ∈ a.childIds e := hsame ▸ List.mem_map_of_mem hchild
    obtain ⟨c, hc, hcj⟩ := List.mem_map.1 hmem
    have hlisted : c ∈ [root] ++ entered.flatMap a.children :=
      List.mem_append_right _ (List.mem_flatMap.2 ⟨e, he, hc⟩)
    exact List.mem_map.2 ⟨c, hentered.perm.mem_iff.2 hlisted, hcj⟩

theorem mem_map_identity_preorder (ha : a.Consistent) {id : NodeId} :
    id ∈ (a.preorder root).map a.identity ↔ ∃ i, a.Reaches root i ∧ a.identity i = id := by
  constructor
  · intro h
    obtain ⟨i, hi, heq⟩ := List.mem_map.1 h
    exact ⟨i, reaches_of_mem_preorder hi, heq⟩
  · rintro ⟨i, hi, rfl⟩
    exact identity_mem_of_reaches ha hi

/-! ## One node of each identity -/

theorem mem_reached : i ∈ a.reached root ↔
    a.Reaches root i ∧ ∀ j < i, a.Reaches root j → a.identity j ≠ a.identity i := by
  simp [reached]

theorem exists_reached (h : a.Reaches root i) :
    ∃ j ∈ a.reached root, a.identity j = a.identity i := by
  induction i using WellFoundedLT.induction with
  | ind i ih =>
    by_cases hearlier : ∃ j < i, a.Reaches root j ∧ a.identity j = a.identity i
    · obtain ⟨j, hlt, hj, heq⟩ := hearlier
      obtain ⟨k, hk, hkj⟩ := ih j hlt hj
      exact ⟨k, hk, hkj.trans heq⟩
    · exact ⟨i, mem_reached.2 ⟨h, fun j hlt hj heq => hearlier ⟨j, hlt, hj, heq⟩⟩, rfl⟩

theorem identity_injOn_reached (a : Ast n) (root : Fin n) :
    Set.InjOn a.identity (a.reached root) := by
  intro i hi j hj heq
  obtain ⟨hireach, hifirst⟩ := mem_reached.1 hi
  obtain ⟨hjreach, hjfirst⟩ := mem_reached.1 hj
  rcases lt_trichotomy i j with hlt | rfl | hlt
  · exact absurd heq (hjfirst i hlt hireach)
  · rfl
  · exact absurd heq.symm (hifirst j hlt hjreach)

theorem Entered.image_identity (h : a.Entered [root] ∅ entered) (ha : a.Consistent) :
    entered.toFinset.image a.identity = (a.reached root).image a.identity := by
  ext id
  simp only [Finset.mem_image, List.mem_toFinset]
  constructor
  · rintro ⟨i, hi, rfl⟩
    exact exists_reached (reaches_of_mem_preorder (h.listed i hi))
  · rintro ⟨i, hi, rfl⟩
    obtain ⟨j, hj, heq⟩ := List.mem_map.1 (identity_mem_of_reaches ha (mem_reached.1 hi).1)
    obtain ⟨k, hk, hkj⟩ := List.mem_map.1 (h.identity_mem hj)
    exact ⟨k, hk, hkj.trans heq⟩

/-- What depends on identities only has one sum over the nodes entered and the nodes reached. -/
theorem Entered.sum_eq (h : a.Entered [root] ∅ entered) (ha : a.Consistent) {f : Fin n → Nat}
    (hf : ∀ i j, a.identity i = a.identity j → f i = f j) :
    (entered.map f).sum = ∑ i ∈ a.reached root, f i := by
  have hfactor : ∀ i, f i = Function.extend a.identity f (fun _ => 0) (a.identity i) := fun i =>
    (Function.FactorsThrough.extend_apply (fun i j => hf i j) _ i).symm
  have hentered : Set.InjOn a.identity entered.toFinset := fun i hi j hj heq =>
    List.inj_on_of_nodup_map h.distinct (List.mem_toFinset.1 hi) (List.mem_toFinset.1 hj) heq
  rw [← List.sum_toFinset f h.distinct.of_map]
  calc ∑ i ∈ entered.toFinset, f i
      = ∑ id ∈ entered.toFinset.image a.identity, Function.extend a.identity f (fun _ => 0) id := by
        rw [Finset.sum_image hentered]
        exact Finset.sum_congr rfl fun i _ => hfactor i
    _ = ∑ i ∈ a.reached root, f i := by
        rw [h.image_identity ha, Finset.sum_image (a.identity_injOn_reached root)]
        exact Finset.sum_congr rfl fun i _ => (hfactor i).symm

/-! ## Counting -/

theorem count_map_identity_preorder (ha : a.Consistent) (root : Fin n) (id : NodeId) :
    ((a.preorder root).map a.identity).count id =
      (if a.identity root = id then 1 else 0) + ∑ i ∈ a.reached root, (a.childIds i).count id := by
  obtain ⟨entered, h⟩ := a.exists_entered [root] ∅
  have hsum : (entered.map fun i => (a.childIds i).count id).sum =
      ∑ i ∈ a.reached root, (a.childIds i).count id :=
    h.sum_eq ha fun i j heq => congrArg (List.count id) (ha i j heq)
  rw [← hsum, preorder_eq_listed, (h.perm.map a.identity).count_eq, List.map_append,
    List.count_append, List.map_flatMap, List.count_flatMap]
  congr 1
  rw [List.map_singleton, List.count_singleton]
  simp only [beq_iff_eq]

theorem length_preorder (ha : a.Consistent) (root : Fin n) :
    (a.preorder root).length = 1 + ∑ i ∈ a.reached root, (a.children i).length := by
  obtain ⟨entered, h⟩ := a.exists_entered [root] ∅
  have hlength : ∀ i j, a.identity i = a.identity j →
      (a.children i).length = (a.children j).length := fun i j heq => by
    have := congrArg List.length (ha i j heq)
    rwa [childIds, childIds, List.length_map, List.length_map] at this
  rw [preorder_eq_listed, h.perm.length_eq, List.length_append, List.length_flatMap,
    h.sum_eq ha hlength, List.length_singleton]

/-! ## Trees -/

theorem IsTree.sum_count_le_one (h : a.IsTree root) (ha : a.Consistent) (id : NodeId) :
    (if a.identity root = id then 1 else 0) +
      ∑ i ∈ a.reached root, (a.childIds i).count id ≤ 1 := by
  by_cases hroot : a.identity root = id
  · subst hroot
    have hnone : ∑ i ∈ a.reached root, (a.childIds i).count (a.identity root) = 0 := by
      rw [Finset.sum_eq_zero_iff]
      intro i hi
      exact List.count_eq_zero.2 (h.top i (mem_reached.1 hi).1)
    rw [hnone, if_pos rfl]
  · rw [if_neg hroot, Nat.zero_add, Finset.sum_le_one_iff]
    intro p q hp hq hcountp hcountq
    obtain ⟨hreachp, -⟩ := mem_reached.1 hp
    obtain ⟨hreachq, -⟩ := mem_reached.1 hq
    have hmemp : id ∈ a.childIds p := List.count_pos_iff.1 (Nat.pos_of_ne_zero hcountp)
    have hmemq : id ∈ a.childIds q := List.count_pos_iff.1 (Nat.pos_of_ne_zero hcountq)
    -- The identity is that of a child of `p`, and so of a node that has one parent.
    obtain ⟨i, hi, rfl⟩ := List.mem_map.1 hmemp
    obtain ⟨o, hreacho, hone, honly⟩ := h.parent i (hreachp.tail hi) (Ne.symm hroot)
    have hpo : a.identity p = a.identity o := honly p hreachp hmemp
    have hqo : a.identity q = a.identity o := honly q hreachq hmemq
    refine ⟨a.identity_injOn_reached root hp hq (hpo.trans hqo.symm), ?_⟩
    rw [ha p o hpo, hone]

theorem nodup_preorder_iff (ha : a.Consistent) (root : Fin n) :
    ((a.preorder root).map a.identity).Nodup ↔ a.IsTree root := by
  rw [List.nodup_iff_count_le_one]
  constructor
  · intro h
    have hsum : ∀ id, (if a.identity root = id then 1 else 0) +
        ∑ i ∈ a.reached root, (a.childIds i).count id ≤ 1 := fun id =>
      count_map_identity_preorder ha root id ▸ h id
    constructor
    case top =>
      intro i hi hmem
      obtain ⟨j, hj, hji⟩ := exists_reached hi
      have hroot := hsum (a.identity root)
      rw [if_pos rfl] at hroot
      have hnone : ∑ i ∈ a.reached root, (a.childIds i).count (a.identity root) = 0 := by omega
      have hzero := Finset.sum_eq_zero_iff.1 hnone j hj
      rw [ha j i hji] at hzero
      exact List.count_eq_zero.1 hzero hmem
    case parent =>
      intro i hi hne
      have hle := hsum (a.identity i)
      have hlisted := List.count_pos_iff.2 (identity_mem_of_reaches ha hi)
      rw [count_map_identity_preorder ha, if_neg (Ne.symm hne), Nat.zero_add] at hlisted
      rw [if_neg (Ne.symm hne), Nat.zero_add, Finset.sum_le_one_iff] at hle
      obtain ⟨p, hp, hcount⟩ := Finset.exists_ne_zero_of_sum_ne_zero (Nat.ne_of_gt hlisted)
      -- The sum is one, so that only the nodes with the identity of `p` have a place for it.
      refine ⟨p, (mem_reached.1 hp).1, (hle p p hp hp hcount hcount).2, fun q hq hmem => ?_⟩
      obtain ⟨r, hr, hrq⟩ := exists_reached hq
      have hcountr : (a.childIds r).count (a.identity i) ≠ 0 := by
        rw [ha r q hrq]
        exact Nat.ne_of_gt (List.count_pos_iff.2 hmem)
      rw [← hrq, (hle r p hr hp hcountr hcount).1]
  · intro h id
    rw [count_map_identity_preorder ha]
    exact h.sum_count_le_one ha id

/-- **What a walk lists.** Where nodes of one identity have the same children, a walk ends after one
step for the root and one for each place among the children of the reached nodes. It lists each
identity once if it is the root's and once for each of its places there, so it lists the identities
that can be reached, and lists none twice if and only if the reached nodes form a tree. -/
theorem count_preorder (a : Ast n) (ha : a.Consistent) (root : Fin n) :
    (a.preorder root).length = 1 + ∑ i ∈ a.reached root, (a.children i).length ∧
    (∀ id, ((a.preorder root).map a.identity).count id =
      (if a.identity root = id then 1 else 0) +
        ∑ i ∈ a.reached root, (a.childIds i).count id) ∧
    (∀ id, id ∈ (a.preorder root).map a.identity ↔ ∃ i, a.Reaches root i ∧ a.identity i = id) ∧
    (((a.preorder root).map a.identity).Nodup ↔ a.IsTree root) :=
  ⟨length_preorder ha root, count_map_identity_preorder ha root,
    fun _ => mem_map_identity_preorder ha, nodup_preorder_iff ha root⟩

end CodeGraph.Ast

namespace CodeGraph.SyntaxTree

theorem consistent_ast {t : SyntaxTree} (h : t.size ≤ UInt32.size) : t.ast.Consistent := by
  intro i j heq
  rw [identity_ast, identity_ast] at heq
  have hkeys : i.val = j.val := identity_injective (Nat.lt_of_lt_of_le i.isLt h)
    (Nat.lt_of_lt_of_le j.isLt h) heq
  rw [Fin.ext hkeys]

/-- A node and its child, which has the node as its own child. -/
def ring : SyntaxTree :=
  ((((empty 0).addNode ⟨"A", "", false, none, none⟩).addNode ⟨"B", "", false, none, none⟩).addChild
    0 1).addChild 1 0

theorem count_preorder_ring : ring.ast.Consistent ∧
    ring.ast.Reaches ⟨0, by decide⟩ ⟨1, by decide⟩ ∧
    ¬ ((ring.ast.preorder ⟨0, by decide⟩).map ring.ast.identity).Nodup := by
  have hconsistent : ring.ast.Consistent := consistent_ast (by decide)
  have hdown : ⟨1, by decide⟩ ∈ ring.ast.children ⟨0, by decide⟩ := by decide
  have hreach : ring.ast.Reaches ⟨0, by decide⟩ ⟨1, by decide⟩ := .single hdown
  have hback : ring.ast.identity ⟨0, by decide⟩ ∈ ring.ast.childIds ⟨1, by decide⟩ := by decide
  refine ⟨hconsistent, hreach, fun hnodup => ?_⟩
  have htree := (Ast.count_preorder ring.ast hconsistent ⟨0, by decide⟩).2.2.2.1 hnodup
  exact htree.top ⟨1, by decide⟩ hreach hback

end CodeGraph.SyntaxTree

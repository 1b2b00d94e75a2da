import CodeGraph.Proofs.Ast.Forest
import CodeGraph.Proofs.Lists

/-!
# The links of a forest

`linkOrder` lists the links below a node in the order in which an edge walk follows them: the
entries of a node in order, and behind each child the links below it. Where no node of a tree has
two structural entries, these are the links of its nodes (`mem_linkOrder`).

`visits` lists the nodes that the structural links lead to in that order. Pre-order only follows the
first structural entry of a node, so the nodes of a forest are some of those visited, and they are
all of them if and only if no later structural entry has targets (`Spans.eq_visits_iff`).
-/

namespace CodeGraph.Ast

open CodeGraph.Lists

variable {n : Nat}

/-- How many of a node's link entries are structural. -/
def structuralCount (a : Ast n) (i : Fin n) : Nat := (a.links i).countP (·.1 == .structural)

/-- A link between two nodes. -/
structure Link (n : Nat) where
  source : Fin n
  relation : Relation
  target : Fin n
  deriving DecidableEq

/-- The targets of all the structural entries among some. -/
def structuralTargets (entries : List (Relation × List (Fin n))) : List (Fin n) :=
  (entries.filter (·.1 == .structural)).flatMap (·.2)

/-- The links of a node in order. -/
def nodeLinks (a : Ast n) (i : Fin n) : List (Link n) :=
  (a.links i).flatMap fun e => e.2.map (⟨i, e.1, ·⟩)

/-- The links below a node in the order of an edge walk, in less than `depth` levels. -/
def linkOrder (a : Ast n) : Nat → Fin n → List (Link n)
  | 0, _ => []
  | depth + 1, i =>
    (a.links i).flatMap fun e => e.2.flatMap fun target =>
      ⟨i, e.1, target⟩ :: if e.1 = .structural then a.linkOrder depth target else []

/-- A node and what the structural links below it lead to, in less than `depth` levels. -/
def visits (a : Ast n) : Nat → Fin n → List (Fin n)
  | 0, i => [i]
  | depth + 1, i => i :: (structuralTargets (a.links i)).flatMap (a.visits depth)

/-! ## Structural entries -/

variable {a : Ast n}

theorem children_eq_of_mem {i : Fin n} (hone : a.structuralCount i ≤ 1) {targets : List (Fin n)}
    (h : (.structural, targets) ∈ a.links i) : a.children i = targets := by
  rw [children, related, find?_of_countP_le_one hone h (by rfl)]
  rfl

theorem mem_links_of_mem_children {i child : Fin n} (h : child ∈ a.children i) :
    (.structural, a.children i) ∈ a.links i := by
  rw [children, related] at h ⊢
  cases hfind : (a.links i).find? (·.1 == .structural) with
  | none => simp [hfind] at h
  | some e =>
    obtain ⟨relation, targets⟩ := e
    have hrel : relation = .structural := by simpa using List.find?_some hfind
    subst hrel
    exact List.mem_of_find?_eq_some hfind

theorem Spans.target_mem {roots nodes : List (Fin n)} (h : Spans a roots nodes)
    (hone : ∀ i ∈ nodes, a.structuralCount i ≤ 1) {i : Fin n} (hi : i ∈ nodes)
    {targets : List (Fin n)} (htargets : (.structural, targets) ∈ a.links i) :
    ∀ child ∈ targets, child ∈ nodes := by
  intro child hchild
  rw [← children_eq_of_mem (hone i hi) htargets] at hchild
  exact h.child_mem i hi child hchild

theorem mem_nodeLinks {i : Fin n} {l : Link n} :
    l ∈ a.nodeLinks i ↔ l.source = i ∧ ∃ targets, (l.relation, targets) ∈ a.links i ∧
      l.target ∈ targets := by
  simp only [nodeLinks, List.mem_flatMap, List.mem_map]
  constructor
  · rintro ⟨⟨relation, targets⟩, he, target, htarget, rfl⟩
    exact ⟨rfl, targets, he, htarget⟩
  · rintro ⟨rfl, targets, he, htarget⟩
    exact ⟨_, he, _, htarget, rfl⟩

theorem mem_linkOrder_succ {depth : Nat} {i : Fin n} {l : Link n} :
    l ∈ a.linkOrder (depth + 1) i ↔ l ∈ a.nodeLinks i ∨
      ∃ targets, (.structural, targets) ∈ a.links i ∧ ∃ child ∈ targets,
        l ∈ a.linkOrder depth child := by
  simp only [linkOrder, List.mem_flatMap, List.mem_cons, mem_nodeLinks]
  constructor
  · rintro ⟨⟨relation, targets⟩, he, target, htarget, rfl | hl⟩
    · exact .inl ⟨rfl, targets, he, htarget⟩
    · split at hl
      · next hrel =>
        simp only at hrel
        subst hrel
        exact .inr ⟨targets, he, target, htarget, hl⟩
      · cases hl
  · rintro (⟨rfl, targets, he, htarget⟩ | ⟨targets, he, child, hchild, hl⟩)
    · exact ⟨_, he, _, htarget, .inl rfl⟩
    · exact ⟨_, he, _, hchild, .inr (by simpa using hl)⟩

theorem children_prefix (a : Ast n) (i : Fin n) :
    a.children i <+: structuralTargets (a.links i) := by
  rw [children, related, structuralTargets, ← List.head?_filter]
  cases (a.links i).filter (·.1 == .structural) with
  | nil => exact List.prefix_rfl
  | cons e rest => exact List.prefix_append _ _

theorem structuralTargets_eq_children {i : Fin n} (hone : a.structuralCount i ≤ 1) :
    structuralTargets (a.links i) = a.children i := by
  rw [structuralCount, List.countP_eq_length_filter] at hone
  rw [children, related, structuralTargets, ← List.head?_filter]
  cases h : (a.links i).filter (·.1 == .structural) with
  | nil => rfl
  | cons e rest =>
    have hrest : rest = [] := List.length_eq_zero_iff.1 (by rw [h, List.length_cons] at hone; omega)
    simp [hrest]

theorem structuralTargets_cons (e : Relation × List (Fin n))
    (rest : List (Relation × List (Fin n))) :
    structuralTargets (e :: rest) =
      (if e.1 = .structural then e.2 else []) ++ structuralTargets rest := by
  by_cases h : e.1 = .structural <;> simp [structuralTargets, h]

/-- The structural links below a node are those to its structural targets, each before those below
it. -/
theorem filter_linkOrder (a : Ast n) (i : Fin n) (depth : Nat) :
    (a.linkOrder (depth + 1) i).filter (·.relation == .structural) =
      (structuralTargets (a.links i)).flatMap fun child => ⟨i, .structural, child⟩ ::
        (a.linkOrder depth child).filter (·.relation == .structural) := by
  rw [linkOrder]
  induction a.links i with
  | nil => rfl
  | cons e rest ih =>
    rw [List.flatMap_cons, List.filter_append, ih, structuralTargets_cons, List.flatMap_append]
    congr 1
    by_cases h : e.1 = .structural
    · simp [h, List.filter_flatMap]
    · simp [h, List.filter_flatMap]

theorem visits_eq (a : Ast n) (depth : Nat) (i : Fin n) :
    a.visits depth i =
      i :: ((a.linkOrder depth i).filter (·.relation == .structural)).map (·.target) := by
  induction depth generalizing i with
  | zero => rfl
  | succ depth ih =>
    rw [visits, filter_linkOrder, List.map_flatMap]
    simp only [List.map_cons, ← ih]

/-! ## The links of a forest -/

theorem Spans.mem_linkOrder {roots nodes : List (Fin n)} (h : Spans a roots nodes)
    (hone : ∀ i ∈ nodes, a.structuralCount i ≤ 1) {depth : Nat} (hdepth : nodes.length ≤ depth)
    {l : Link n} : (∃ i ∈ roots, l ∈ a.linkOrder depth i) ↔ ∃ i ∈ nodes, l ∈ a.nodeLinks i := by
  induction h generalizing depth with
  | nil => simp
  | @cons i rest below others hbelow hothers ihBelow ihOthers =>
    simp only [List.length_cons, List.length_append] at hdepth
    obtain ⟨depth, rfl⟩ : ∃ d, depth = d + 1 := ⟨depth - 1, by omega⟩
    have hi : l ∈ a.linkOrder (depth + 1) i ↔
        l ∈ a.nodeLinks i ∨ ∃ j ∈ below, l ∈ a.nodeLinks j := by
      rw [mem_linkOrder_succ,
        ← ihBelow (fun j hj => hone j (by simp [hj])) (show below.length ≤ depth by omega)]
      refine or_congr_right ⟨?_, ?_⟩
      · rintro ⟨targets, he, child, hchild, hl⟩
        rw [← children_eq_of_mem (hone i (by simp)) he] at hchild
        exact ⟨child, hchild, hl⟩
      · rintro ⟨child, hchild, hl⟩
        exact ⟨_, mem_links_of_mem_children hchild, child, hchild, hl⟩
    have hrest := ihOthers (fun j hj => hone j (by simp [hj]))
      (show others.length ≤ depth + 1 by omega)
    simp only [List.mem_cons, List.mem_append, or_and_right, exists_or, exists_eq_left, hi, hrest,
      or_assoc]

theorem mem_linkOrder {root : Fin n} (hnodup : ((a.preorder root).map a.identity).Nodup)
    (hone : ∀ i ∈ a.preorder root, a.structuralCount i ≤ 1) {l : Link n} :
    l ∈ a.linkOrder (n + 1) root ↔ ∃ i ∈ a.preorder root, l ∈ a.nodeLinks i := by
  have hlength := length_le_of_nodup hnodup
  rw [← (spans_preorder hnodup).mem_linkOrder hone (show _ ≤ n + 1 by omega)]
  simp

/-- The nodes of a forest are among those visited, and are all of them if and only if the structural
targets of each are its children. -/
theorem Spans.sublist_visits {roots nodes : List (Fin n)} (h : Spans a roots nodes) {depth : Nat}
    (hdepth : nodes.length ≤ depth) :
    nodes.Sublist (roots.flatMap (a.visits depth)) ∧
      (nodes.length = (roots.flatMap (a.visits depth)).length ↔
        ∀ i ∈ nodes, structuralTargets (a.links i) = a.children i) := by
  induction h generalizing depth with
  | nil => simp
  | @cons i rest below others hbelow hothers ihBelow ihOthers =>
    simp only [List.length_cons, List.length_append] at hdepth
    obtain ⟨depth, rfl⟩ : ∃ d, depth = d + 1 := ⟨depth - 1, by omega⟩
    obtain ⟨hsubBelow, hiffBelow⟩ := ihBelow (show below.length ≤ depth by omega)
    obtain ⟨hsubOthers, hiffOthers⟩ := ihOthers (show others.length ≤ depth + 1 by omega)
    obtain ⟨later, hlater⟩ := a.children_prefix i
    have hvisits : (i :: rest).flatMap (a.visits (depth + 1)) =
        i :: (((a.children i).flatMap (a.visits depth) ++ later.flatMap (a.visits depth)) ++
          rest.flatMap (a.visits (depth + 1))) := by
      rw [List.flatMap_cons, visits, ← hlater, List.flatMap_append, List.cons_append]
    have hnone : (later.flatMap (a.visits depth)).length = 0 ↔ later = [] := by
      rw [List.length_eq_zero_iff, List.flatMap_eq_nil_iff, List.eq_nil_iff_forall_not_mem]
      exact forall₂_congr fun j _ => by simp [visits_eq]
    have htargets : structuralTargets (a.links i) = a.children i ↔ later = [] := by
      rw [← hlater, List.append_right_eq_self]
    rw [hvisits]
    refine ⟨((hsubBelow.trans (List.sublist_append_left _ _)).append hsubOthers).cons_cons i, ?_⟩
    have hleBelow := hsubBelow.length_le
    have hleOthers := hsubOthers.length_le
    simp only [List.forall_mem_cons, List.forall_mem_append, htargets, ← hnone, ← hiffBelow,
      ← hiffOthers, List.length_cons, List.length_append]
    omega

theorem Spans.eq_visits_iff {roots nodes : List (Fin n)} (h : Spans a roots nodes) {depth : Nat}
    (hdepth : nodes.length ≤ depth) :
    nodes = roots.flatMap (a.visits depth) ↔
      ∀ i ∈ nodes, structuralTargets (a.links i) = a.children i := by
  obtain ⟨hsub, hiff⟩ := h.sublist_visits hdepth
  exact ⟨fun heq => hiff.1 (congrArg List.length heq), fun hall => hsub.eq_of_length (hiff.2 hall)⟩

end CodeGraph.Ast

import CodeGraph.Proofs.Lists
import CodeGraph.Proofs.SyntaxTree.Edits
import Mathlib.Data.List.Forall2
import Mathlib.Data.List.Induction

/-!
# Syntax trees and what was done to them

Trees are created, copied and edited by calls in any order. A tree's history are the edits that were
called for it and, before it was copied, for the tree that it was copied from. If no edit names a
node that is not there, none fails, and what a tree shows afterwards is what its history says: the
links in the order in which they were first made, and the parents that were given first
(`showsHistory_of_keysInRange`).
-/

namespace CodeGraph.SyntaxTree

/-! ## Calls -/

/-- One call. The trees that are there already are named by the order in which they came. -/
inductive TreeCall
  | create
  | clone (i : Nat)
  | edit (i : Nat) (e : Edit)

/-- What calls work on, in the order in which it came, and how much of it is no copy. -/
structure Pool (α : Type) where
  created : Nat
  items : List α

variable {α β : Type}

/-- What a call does to trees, or to anything else that can be created and edited. -/
def TreeCall.run (new : Nat → α) (next : α → Edit → α) (pool : Pool α) : TreeCall → Pool α
  | create => ⟨pool.created + 1, pool.items ++ [new pool.created]⟩
  | clone i => { pool with items := pool.items ++ pool.items[i]?.toList }
  | edit i e => { pool with items := pool.items.modify i (next · e) }

def runTreeCalls (new : Nat → α) (next : α → Edit → α) (calls : List TreeCall) : Pool α :=
  calls.foldl (TreeCall.run new next) ⟨0, []⟩

/-- The trees that calls lead to. -/
def treesOf (calls : List TreeCall) : List SyntaxTree :=
  (runTreeCalls (fun n => empty (UInt32.ofNat n)) Edit.apply calls).items

/-- The histories of the same trees. -/
def historiesOf (calls : List TreeCall) : List (List Edit) :=
  (runTreeCalls (fun _ => []) (fun edits e => edits ++ [e]) calls).items

/-- Whether a call only names nodes that are there. -/
def TreeCall.InRange (trees : List SyntaxTree) : TreeCall → Prop
  | edit i e => ∀ t ∈ trees[i]?, ∀ key ∈ e.keys, key < t.size
  | _ => True

instance (trees : List SyntaxTree) : (call : TreeCall) → Decidable (call.InRange trees)
  | .create => isTrue trivial
  | .clone _ => isTrue trivial
  | .edit i e => inferInstanceAs (Decidable (∀ t ∈ trees[i]?, ∀ key ∈ e.keys, key < t.size))

/-- Whether each call only names nodes that are there when it is made. -/
def KeysInRange (calls : List TreeCall) : Prop :=
  ∀ (n : Nat) (_ : n < calls.length), calls[n].InRange (treesOf (calls.take n))

instance (calls : List TreeCall) : Decidable (KeysInRange calls) :=
  inferInstanceAs (Decidable
    (∀ (n : Nat) (_ : n < calls.length), calls[n].InRange (treesOf (calls.take n))))

variable {calls later : List TreeCall} {call : TreeCall}

theorem KeysInRange.of_append (h : KeysInRange (calls ++ later)) : KeysInRange calls := by
  intro n hn
  have hcall := h n (by rw [List.length_append]; omega)
  rwa [List.getElem_append_left hn, List.take_append_of_le_length (by omega)] at hcall

theorem KeysInRange.last (h : KeysInRange (calls ++ [call])) : call.InRange (treesOf calls) := by
  have hcall := h calls.length (by simp)
  rwa [List.getElem_concat_length rfl, List.take_left] at hcall

/-! ## Two pools side by side -/

/-- A call keeps two pools alike in what creating and editing keep alike. -/
theorem TreeCall.run_alike {R : α → β → Prop} {new : Nat → α} {new' : Nat → β} {next : α → Edit → α}
    {next' : β → Edit → β} (hnew : ∀ n, R (new n) (new' n)) {pool : Pool α} {pool' : Pool β}
    (hcreated : pool.created = pool'.created) (hitems : List.Forall₂ R pool.items pool'.items)
    (call : TreeCall)
    (hnext : ∀ i e, call = .edit i e → ∀ x y, pool.items[i]? = some x → R x y →
      R (next x e) (next' y e)) :
    (call.run new next pool).created = (call.run new' next' pool').created ∧
      List.Forall₂ R (call.run new next pool).items (call.run new' next' pool').items := by
  cases call with
  | create =>
    refine ⟨congrArg (· + 1) hcreated, List.rel_append hitems (.cons ?_ .nil)⟩
    exact hcreated ▸ hnew _
  | clone i => exact ⟨hcreated, List.rel_append hitems (Lists.forall₂_toList_getElem? hitems i)⟩
  | edit i e => exact ⟨hcreated, Lists.forall₂_modify hitems (hnext i e rfl)⟩

theorem madeBy_of_keysInRange (h : KeysInRange calls) :
    List.Forall₂ MadeBy (treesOf calls) (historiesOf calls) := by
  refine And.right (a := (runTreeCalls (fun n => empty (UInt32.ofNat n)) Edit.apply calls).created =
    (runTreeCalls (fun _ => []) (fun edits e => edits ++ [e]) calls).created) ?_
  induction calls using List.reverseRecOn with
  | nil => exact ⟨rfl, .nil⟩
  | append_singleton calls call ih =>
    obtain ⟨hcreated, hitems⟩ := ih h.of_append
    rw [treesOf, historiesOf, runTreeCalls, runTreeCalls, List.foldl_concat, List.foldl_concat]
    refine call.run_alike (fun n => madeBy_empty _) hcreated hitems ?_
    rintro i e rfl t edits ht hmade
    exact hmade.apply (h.last t ht)

theorem exists_history_append (later : List TreeCall) {i : Nat} {edits : List Edit}
    (h : (historiesOf calls)[i]? = some edits) :
    ∃ more, (historiesOf (calls ++ later))[i]? = some (edits ++ more) := by
  induction later using List.reverseRecOn with
  | nil => exact ⟨[], by rw [List.append_nil, List.append_nil, h]⟩
  | append_singleton later call ih =>
    obtain ⟨more, hmore⟩ := ih
    have hlt := (List.getElem?_eq_some_iff.1 hmore).1
    rw [← List.append_assoc, historiesOf, runTreeCalls, List.foldl_concat]
    cases call with
    | create => exact ⟨more, (List.getElem?_append_left hlt).trans hmore⟩
    | clone j => exact ⟨more, (List.getElem?_append_left hlt).trans hmore⟩
    | edit j e =>
      refine ⟨if j = i then more ++ [e] else more, ?_⟩
      rw [TreeCall.run, List.getElem?_modify]
      change Option.map _ (historiesOf (calls ++ later))[i]? = _
      rw [hmore]
      split <;> simp

/-! ## What trees show -/

/-- What a tree shows if it is what its history says. -/
structure ShowsHistory (t : SyntaxTree) (edits : List Edit) : Prop where
  root : ∃ root, t.root? = .ok root
  nodes : ∀ k < t.size, ∃ x, t.node? k = .ok x
  /-- One entry for each relation, in the order in which they were first used; under it the targets
  in the order in which they were first linked. -/
  links : ∀ k < t.size, ∃ links, t.links? k = .ok links ∧
    links.map (·.1) = ((linksFrom edits k).map (·.1)).eraseDups ∧ (links.map (·.1)).Nodup ∧
    ∀ entry ∈ links,
      entry.2 = (((linksFrom edits k).filter (·.1 == entry.1)).map (·.2)).eraseDups ∧
      entry.2 ≠ [] ∧ entry.2.Nodup ∧ ∀ target ∈ entry.2, target < t.size
  related : ∀ k < t.size, ∀ relation,
    t.related? k relation = .ok (madeTargets (linksFrom edits k) relation)
  children : ∀ k < t.size, t.children? k = .ok (madeTargets (linksFrom edits k) .structural)
  fields : ∀ k < t.size, ∀ field, ∃ child, t.childByField? k field = .ok child
  parents : ∀ k < t.size, t.parentKey? k = firstParent? edits k
  parentsAbove : ∀ k p, t.parentKey? k = some p →
    p < t.size ∧ ∃ children, t.children? p = .ok children ∧ k ∈ children

variable {t : SyntaxTree} {edits : List Edit}

theorem MadeBy.entry (h : t.MadeBy edits) {k : Nat} {entry : Relation × List Nat}
    (hentry : entry ∈ groupLinks (linksFrom edits k)) :
    entry.2 = madeTargets (linksFrom edits k) entry.1 ∧
      entry.2 ≠ [] ∧ entry.2.Nodup ∧ ∀ target ∈ entry.2, target < t.size := by
  obtain ⟨relation, hrelation, rfl⟩ := List.mem_map.1 hentry
  obtain ⟨l, hl, rfl⟩ := List.mem_map.1 (List.mem_eraseDups.1 hrelation)
  refine ⟨rfl, List.ne_nil_of_mem (mem_madeTargets.2 hl), Lists.nodup_eraseDups _, ?_⟩
  intro target htarget
  exact h.lt_size (mem_madeTargets.1 htarget)

theorem MadeBy.showsHistory (h : t.MadeBy edits) : t.ShowsHistory edits where
  root := h.exists_root
  nodes k hk := ⟨t.nodes[k], by rw [node?, Array.getElem?_eq_getElem hk]⟩
  links k hk := by
    refine ⟨_, h.links?_eq hk, map_fst_groupLinks _, ?_, fun entry hentry => h.entry hentry⟩
    rw [map_fst_groupLinks]
    exact Lists.nodup_eraseDups _
  related k hk relation := h.related?_eq hk relation
  children k hk := h.related?_eq hk .structural
  fields k hk field := by
    rw [childByField?, children?, h.related?_eq hk]
    exact ⟨_, rfl⟩
  parents := h.parents
  parentsAbove k p hparent := by
    obtain ⟨hp, hmem⟩ := h.of_parentKey? hparent
    exact ⟨hp, _, h.related?_eq hp .structural, hmem⟩

/-- A parent that was given stays. -/
theorem parentKey?_of_append (h : KeysInRange (calls ++ later)) {i : Nat}
    (ht : (treesOf calls)[i]? = some t) :
    ∃ t', (treesOf (calls ++ later))[i]? = some t' ∧
      ∀ k p, t.parentKey? k = some p → t'.parentKey? k = some p := by
  obtain ⟨edits, hedits, hmade⟩ :=
    Lists.getElem?_of_forall₂ (madeBy_of_keysInRange h.of_append) ht
  obtain ⟨more, hmore⟩ := exists_history_append later hedits
  obtain ⟨t', ht', hmade'⟩ := Lists.getElem?_of_forall₂ (madeBy_of_keysInRange h).flip hmore
  refine ⟨t', ht', fun k p hparent => ?_⟩
  rw [hmade.parents k (lt_size_of_parentKey? hparent)] at hparent
  have hk : k < t'.size := by
    obtain ⟨e, he, hgiven⟩ := List.exists_of_findSome?_eq_some hparent
    obtain rfl := Edit.parentOf?_eq_some_iff.1 hgiven
    exact hmade'.keys _ (List.mem_append_left _ he) k (by simp [Edit.keys])
  rw [hmade'.parents k hk, firstParent?, List.findSome?_append, ← firstParent?, hparent]
  rfl

/-- If calls only name nodes that are there, none of them fails, and neither does any look at the
trees that they make. These show what their histories say, and keep the parents that they have. -/
theorem showsHistory_of_keysInRange (calls : List TreeCall) (h : KeysInRange calls) :
    (∀ (n : Nat) (hn : n < calls.length) (i : Nat) (e : Edit), calls[n] = .edit i e →
      ∀ t, (treesOf (calls.take n))[i]? = some t → e.fault? t = none) ∧
    ∀ (i : Nat) (t : SyntaxTree), (treesOf calls)[i]? = some t →
      (∃ edits, (historiesOf calls)[i]? = some edits ∧ t.ShowsHistory edits) ∧
      ∀ later : List TreeCall, KeysInRange (calls ++ later) →
        ∃ t', (treesOf (calls ++ later))[i]? = some t' ∧
          ∀ k p, t.parentKey? k = some p → t'.parentKey? k = some p := by
  constructor
  · intro n hn i e hcall t ht
    have hrange := h n hn
    rw [hcall] at hrange
    exact Edit.fault?_eq_none (hrange t ht)
  · intro i t ht
    obtain ⟨edits, hedits, hmade⟩ := Lists.getElem?_of_forall₂ (madeBy_of_keysInRange h) ht
    exact ⟨⟨edits, hedits, hmade.showsHistory⟩, fun later hlater => parentKey?_of_append hlater ht⟩

/-- A node that calls itself, a child that is linked before it is given a parent, and a copy that
goes its own way. -/
def sharedCalls : List TreeCall :=
  let leaf : NodeData := ⟨"Leaf", "", false, none, none⟩
  [.create, .edit 0 (.addNode leaf), .edit 0 (.addNode leaf), .edit 0 (.addNode leaf),
    .edit 0 (.link 0 .calls 0), .edit 0 (.link 0 .structural 1), .edit 0 (.link 0 .structural 1),
    .edit 0 (.addChild 2 1), .clone 0, .edit 1 (.addChild 0 1), .edit 1 (.addChild 0 2),
    .edit 1 (.setRoot 2), .edit 0 (.setSourcePath "a.py")]

theorem showsHistory_sharedCalls :
    KeysInRange sharedCalls ∧ ∃ t u, treesOf sharedCalls = [t, u] ∧
      t.links? 0 = .ok [(.calls, [0]), (.structural, [1])] ∧ t.parentKey? 1 = some 2 ∧
      t.children? 2 = .ok [1] ∧
      u.children? 0 = .ok [1, 2] ∧ u.parentKey? 1 = some 2 ∧ u.parentKey? 2 = some 0 := by
  have hrange : KeysInRange sharedCalls := by decide
  obtain ⟨-, hshown⟩ := showsHistory_of_keysInRange sharedCalls hrange
  obtain ⟨⟨edits, hedits, ht⟩, -⟩ := hshown 0 _ rfl
  obtain ⟨⟨edits', hedits', hu⟩, -⟩ := hshown 1 _ rfl
  cases hedits
  cases hedits'
  refine ⟨hrange, _, _, rfl, ?_, ht.parents 1 (by decide), ht.children 2 (by decide),
    hu.children 0 (by decide), hu.parents 1 (by decide), hu.parents 2 (by decide)⟩
  rfl

end CodeGraph.SyntaxTree

import CodeGraph.Proofs.Conversion.Vertices
import CodeGraph.Proofs.EdgeWalk.Faults

/-!
# The outcome of a conversion

A tree is taken up if and only if it is `Convertible`, and else the outcome is its first fault:
that of the first node in pre-order which gets no vertex, or if all get one that of the first link
in the order of the edge walk which cannot be followed. This holds in any state of the conversion,
for trees none of whose nodes has two structural entries. With two, pre-order follows only the first
while the edge walk follows both.
-/

namespace CodeGraph.Conversion

open Attempt CodeGraph.Lists

variable {n : Nat}

/-- What a tree must be like to be taken up. -/
structure Convertible (c : Conversion) (a : Ast n) (source : AttributeSource n) (root : Fin n) :
    Prop where
  distinct : ((a.preorder root).map a.identity).Nodup
  fresh : ∀ i ∈ a.preorder root, ¬ c.handles.contains (a.identity i) = true
  usable : ∀ i ∈ a.preorder root, ∃ extra, source i = .ok extra ∧
    ∀ e ∈ extra.entries, e.1 ∉ PropertyName.reserved
  named : ∀ i ∈ a.preorder root, ∀ targets, (.type, targets) ∈ a.links i →
    ∀ target ∈ targets, (a.name? target).isSome
  known : ∀ i ∈ a.preorder root, ∀ relation targets, (relation, targets) ∈ a.links i →
    relation ≠ .structural → relation ≠ .type → ∀ target ∈ targets,
      a.identity target ∈ (a.preorder root).map a.identity ∨
        c.handles.contains (a.identity target) = true

/-- Whether an identity is cached, or will be when nodes are taken up. -/
def knows (c : Conversion) (a : Ast n) (nodes : List (Fin n)) (id : NodeId) : Bool :=
  c.handles.contains id || (nodes.map a.identity).contains id

/-- The first fault of a tree: of its nodes in pre-order, or else of its links in the order of the
edge walk. -/
def fault? (c : Conversion) (a : Ast n) (source : AttributeSource n) (root : Fin n) :
    Option ConversionError :=
  let nodes := a.preorder root
  ((List.range nodes.length).findSome? (c.nodeFault? a source nodes)).or
    ((a.linkOrder (n + 1) root).findSome? (a.linkFault? (c.knows a nodes)))

variable {c : Conversion} {a : Ast n} {source : AttributeSource n} {root : Fin n}

theorem knows_eq_true_iff {nodes : List (Fin n)} {id : NodeId} :
    c.knows a nodes id = true ↔
      c.handles.contains id = true ∨ id ∈ nodes.map a.identity := by
  rw [knows, Bool.or_eq_true, List.contains_iff_mem]

/-! ## The first fault is the outcome -/

theorem failure?_start {c₁ : Conversion} (h : TakesUp a source (a.preorder root) c c₁)
    (hone : ∀ i ∈ a.preorder root, a.structuralCount i ≤ 1) :
    failure? (EdgeWalk.start a (c₁.handles[·]?) c₁.graph root) =
      (a.linkOrder (n + 1) root).findSome? (a.linkFault? (c.knows a (a.preorder root))) := by
  have hknows : (fun id => c₁.handles[id]?.isSome) = c.knows a (a.preorder root) := by
    funext id
    rw [Bool.eq_iff_iff, h.isSome_iff, knows_eq_true_iff]
  have hroot : (c₁.handles[a.identity root]?).isSome := by
    rw [h.isSome_iff]
    exact .inr (List.mem_map_of_mem (a.mem_preorder_self root))
  have hlength := Ast.length_le_of_nodup h.nodup
  rw [EdgeWalk.start_eq, failure?_map, ← hknows]
  exact EdgeWalk.failure?_changesWithin (Ast.spans_preorder h.nodup) hone (by omega) root
    List.mem_cons_self hroot

theorem failure?_add (hone : ∀ i ∈ a.preorder root, a.structuralCount i ≤ 1) :
    failure? (c.add a source root) = c.fault? a source root := by
  rw [add_eq, fault?, ← failure?_foldlM_addVertex]
  cases h : (a.preorder root).foldlM (addVertex a source) c with
  | error e => rfl
  | ok c₁ =>
    rw [ok_bind, failure?_map, failure?_start (takesUp_of_foldlM h) hone]
    rfl

theorem process_snd_eq_error_iff {e : ConversionError} :
    (c.process a source root).2 = .error e ↔ failure? (c.add a source root) = some e := by
  rw [process]
  cases c.add a source root <;> simp [failure?]

theorem process_snd_eq_ok_iff :
    (c.process a source root).2 = .ok () ↔ failure? (c.add a source root) = none := by
  rw [process]
  cases c.add a source root <;> simp [failure?]

/-! ## Trees without fault -/

theorem nodeFault?_eq_none_iff {nodes : List (Fin n)} {place : Nat} (h : place < nodes.length) :
    c.nodeFault? a source nodes place = none ↔
      ¬ c.handles.contains (a.identity nodes[place]) = true ∧
      a.identity nodes[place] ∉ (nodes.take place).map a.identity ∧
      ∃ extra, source nodes[place] = .ok extra ∧
        ∀ e ∈ extra.entries, e.1 ∉ PropertyName.reserved := by
  simp only [nodeFault?, List.getElem?_eq_getElem h]
  split
  · next hbad =>
    simp only [reduceCtorEq, false_iff]
    rintro ⟨hcached, hearlier, -⟩
    exact hbad.elim hcached hearlier
  · next hgood =>
    rw [not_or] at hgood
    simp only [failure?_eq_none_iff, extraAttributes_eq_ok_iff, hgood.1, hgood.2,
      Bool.false_eq_true, not_false_eq_true, true_and]

theorem nodes_fault?_eq_none_iff {nodes : List (Fin n)} :
    (List.range nodes.length).findSome? (c.nodeFault? a source nodes) = none ↔
      (nodes.map a.identity).Nodup ∧
      (∀ i ∈ nodes, ¬ c.handles.contains (a.identity i) = true) ∧
      ∀ i ∈ nodes, ∃ extra, source i = .ok extra ∧
        ∀ e ∈ extra.entries, e.1 ∉ PropertyName.reserved := by
  rw [List.findSome?_eq_none_iff]
  constructor
  · intro h
    have hplace : ∀ place, (hlt : place < nodes.length) → _ := fun place hlt =>
      (nodeFault?_eq_none_iff hlt).1 (h place (List.mem_range.2 hlt))
    refine ⟨?_, fun i hi => ?_, fun i hi => ?_⟩
    · rw [List.Nodup, List.pairwise_iff_getElem]
      intro p q hp hq hpq heq
      rw [List.length_map] at hp hq
      rw [List.getElem_map, List.getElem_map] at heq
      refine (hplace q hq).2.1 (List.mem_map.2 ⟨nodes[p], ?_, heq⟩)
      exact List.mem_take_iff_getElem.2 ⟨p, by omega, rfl⟩
    · obtain ⟨place, hlt, rfl⟩ := List.mem_iff_getElem.1 hi
      exact (hplace place hlt).1
    · obtain ⟨place, hlt, rfl⟩ := List.mem_iff_getElem.1 hi
      exact (hplace place hlt).2.2
  · rintro ⟨hnodup, hfresh, husable⟩ place hplace
    have hlt := List.mem_range.1 hplace
    refine (nodeFault?_eq_none_iff hlt).2
      ⟨hfresh _ (List.getElem_mem hlt), fun hmem => ?_, husable _ (List.getElem_mem hlt)⟩
    obtain ⟨i, hi, heq⟩ := List.mem_map.1 hmem
    obtain ⟨p, hp, rfl⟩ := List.mem_take_iff_getElem.1 hi
    rw [List.Nodup, List.pairwise_iff_getElem] at hnodup
    refine hnodup p place (by rw [List.length_map]; omega) (by rwa [List.length_map]) (by omega) ?_
    rwa [List.getElem_map, List.getElem_map]

theorem exists_foldlM_addVertex_iff {nodes : List (Fin n)} :
    (∃ c', nodes.foldlM (addVertex a source) c = .ok c') ↔
      (nodes.map a.identity).Nodup ∧
      (∀ i ∈ nodes, ¬ c.handles.contains (a.identity i) = true) ∧
      ∀ i ∈ nodes, ∃ extra, source i = .ok extra ∧
        ∀ e ∈ extra.entries, e.1 ∉ PropertyName.reserved := by
  rw [← failure?_eq_none_iff, failure?_foldlM_addVertex, nodes_fault?_eq_none_iff]

theorem linkFault?_eq_none_iff {cached : NodeId → Bool} {l : Ast.Link n} :
    a.linkFault? cached l = none ↔
      (l.relation = .type → (a.name? l.target).isSome) ∧
      (l.relation ≠ .type → cached (a.identity l.target) = true) := by
  unfold Ast.linkFault?
  by_cases ht : l.relation = .type
  · cases h : (a.name? l.target).isSome <;> simp [ht]
  · cases h : cached (a.identity l.target) <;> simp [ht]

theorem knows_of_structural (hnodup : ((a.preorder root).map a.identity).Nodup)
    (hone : ∀ i ∈ a.preorder root, a.structuralCount i ≤ 1) {l : Ast.Link n}
    (hl : l ∈ a.linkOrder (n + 1) root) (hrel : l.relation = .structural) :
    c.knows a (a.preorder root) (a.identity l.target) = true := by
  have hspans := Ast.spans_preorder hnodup
  obtain ⟨i, hi, hl⟩ := (Ast.mem_linkOrder hnodup hone).1 hl
  obtain ⟨-, targets, he, htarget⟩ := Ast.mem_nodeLinks.1 hl
  rw [hrel] at he
  rw [← Ast.children_eq_of_mem (hone i hi) he] at htarget
  exact knows_eq_true_iff.2 (.inr (List.mem_map_of_mem (hspans.child_mem i hi _ htarget)))

theorem links_fault?_eq_none_iff (hnodup : ((a.preorder root).map a.identity).Nodup)
    (hone : ∀ i ∈ a.preorder root, a.structuralCount i ≤ 1) :
    (a.linkOrder (n + 1) root).findSome? (a.linkFault? (c.knows a (a.preorder root))) = none ↔
      (∀ i ∈ a.preorder root, ∀ targets, (.type, targets) ∈ a.links i →
        ∀ target ∈ targets, (a.name? target).isSome) ∧
      ∀ i ∈ a.preorder root, ∀ relation targets, (relation, targets) ∈ a.links i →
        relation ≠ .structural → relation ≠ .type → ∀ target ∈ targets,
          a.identity target ∈ (a.preorder root).map a.identity ∨
            c.handles.contains (a.identity target) = true := by
  have hmem := fun l => Ast.mem_linkOrder (l := l) hnodup hone
  rw [List.findSome?_eq_none_iff]
  constructor
  · intro h
    have hlink : ∀ i ∈ a.preorder root, ∀ relation targets, (relation, targets) ∈ a.links i →
        ∀ target ∈ targets, _ := fun i hi relation targets he target htarget =>
      linkFault?_eq_none_iff.1
        (h ⟨i, relation, target⟩ ((hmem _).2 ⟨i, hi, Ast.mem_nodeLinks.2 ⟨rfl, _, he, htarget⟩⟩))
    refine ⟨fun i hi targets he target htarget => ?_, ?_⟩
    · exact (hlink i hi _ targets he target htarget).1 rfl
    · intro i hi relation targets he _ ht target htarget
      exact (knows_eq_true_iff.1 ((hlink i hi _ targets he target htarget).2 ht)).symm
  · rintro ⟨hnamed, hknown⟩ l hl
    obtain ⟨i, hi, hnode⟩ := (hmem l).1 hl
    obtain ⟨-, targets, he, htarget⟩ := Ast.mem_nodeLinks.1 hnode
    refine linkFault?_eq_none_iff.2 ⟨fun ht => ?_, fun ht => ?_⟩
    · rw [ht] at he
      exact hnamed i hi targets he _ htarget
    · by_cases hs : l.relation = .structural
      · exact knows_of_structural hnodup hone hl hs
      · exact knows_eq_true_iff.2 (hknown i hi _ targets he hs ht _ htarget).symm

theorem fault?_eq_none_iff (hone : ∀ i ∈ a.preorder root, a.structuralCount i ≤ 1) :
    c.fault? a source root = none ↔ c.Convertible a source root := by
  rw [fault?, Option.or_eq_none_iff, nodes_fault?_eq_none_iff]
  constructor
  · rintro ⟨⟨hdistinct, hfresh, husable⟩, hlinks⟩
    obtain ⟨hnamed, hknown⟩ := (links_fault?_eq_none_iff hdistinct hone).1 hlinks
    exact ⟨hdistinct, hfresh, husable, hnamed, hknown⟩
  · rintro ⟨hdistinct, hfresh, husable, hnamed, hknown⟩
    exact ⟨⟨hdistinct, hfresh, husable⟩,
      (links_fault?_eq_none_iff hdistinct hone).2 ⟨hnamed, hknown⟩⟩

theorem process_eq_ok_iff (hone : ∀ i ∈ a.preorder root, a.structuralCount i ≤ 1) :
    (c.process a source root).2 = .ok () ↔ c.Convertible a source root := by
  rw [process_snd_eq_ok_iff, failure?_add hone, fault?_eq_none_iff hone]

/-! ## Faults that do not occur -/

theorem nodeFault?_ne {nodes : List (Fin n)} {place : Nat} {e : ConversionError}
    (h : c.nodeFault? a source nodes place = some e) :
    (∀ relation kind reason, e ≠ .unresolved relation kind reason) ∧ ∀ kind, e ≠ .endless kind := by
  rw [nodeFault?] at h
  split at h
  · cases h
  · next i _ =>
    split at h
    · cases h
      exact ⟨by simp, by simp⟩
    · rw [failure?_eq_some_iff, extraAttributes] at h
      split at h
      · cases h
        exact ⟨by simp, by simp⟩
      · split at h <;> cases h
        exact ⟨by simp, by simp⟩

/-- No structural link is at fault, and no walk is endless. -/
theorem fault?_ne (hone : ∀ i ∈ a.preorder root, a.structuralCount i ≤ 1) {e : ConversionError}
    (h : c.fault? a source root = some e) :
    (∀ kind reason, e ≠ .unresolved .structural kind reason) ∧ ∀ kind, e ≠ .endless kind := by
  rw [fault?, Option.or_eq_some_iff] at h
  rcases h with h | ⟨hnodes, h⟩
  · obtain ⟨place, -, h⟩ := List.exists_of_findSome?_eq_some h
    obtain ⟨hunresolved, hendless⟩ := nodeFault?_ne h
    exact ⟨hunresolved .structural, hendless⟩
  · -- All nodes are taken up, so that a structural link leads to a node that is known.
    obtain ⟨l, hl, h⟩ := List.exists_of_findSome?_eq_some h
    have hnodup := (nodes_fault?_eq_none_iff.1 hnodes).1
    rw [Ast.linkFault?] at h
    split at h
    · split at h <;> cases h
      exact ⟨by simp, by simp⟩
    · split at h <;> cases h
      next hunknown =>
      refine ⟨fun kind reason heq => hunknown ?_, by simp⟩
      injection heq with hrel
      exact knows_of_structural hnodup hone hl hrel

/-- **The outcome of a conversion.** Where no node of the tree has two structural entries, `process`
succeeds if and only if the tree is convertible; else it gives the first fault, which is never that
of a structural link. -/
theorem process_outcome (c : Conversion) (a : Ast n) (source : AttributeSource n) (root : Fin n)
    (hone : ∀ i ∈ a.preorder root, a.structuralCount i ≤ 1) :
    ((c.process a source root).2 = .ok () ↔ c.Convertible a source root) ∧
    (∀ e, (c.process a source root).2 = .error e ↔ c.fault? a source root = some e) ∧
    ∀ e, (c.process a source root).2 = .error e →
      (∀ kind reason, e ≠ .unresolved .structural kind reason) ∧ ∀ kind, e ≠ .endless kind := by
  refine ⟨process_eq_ok_iff hone, fun e => ?_, fun e he => ?_⟩
  · rw [process_snd_eq_error_iff, failure?_add hone]
  · rw [process_snd_eq_error_iff, failure?_add hone] at he
    exact fault?_ne hone he

/-- A file with one name in it, which it calls, and which is its own type. -/
def fileWithName : Ast 2 :=
  ⟨#v[⟨1, "File", "x", none, none, [(.structural, [1]), (.calls, [1])]⟩,
    ⟨2, "Name", "x", some 0, some "x", [(.type, [1])]⟩]⟩

theorem process_outcome_fileWithName :
    (∀ i ∈ fileWithName.preorder 0, fileWithName.structuralCount i ≤ 1) ∧
      ((∅ : Conversion).process fileWithName .none 0).2 = .ok () := by
  have hone : ∀ i, fileWithName.structuralCount i ≤ 1 := by decide
  refine ⟨fun i _ => hone i,
    (process_outcome ∅ fileWithName .none 0 fun i _ => hone i).1.2 ?_⟩
  have hnodes : fileWithName.preorder 0 = [0, 1] := by
    rw [Ast.preorder_eq_listed, Ast.listed_cons_fresh _ (by decide)]
    change 0 :: fileWithName.listed [1] _ = _
    rw [Ast.listed_cons_fresh _ (by decide)]
    change 0 :: 1 :: fileWithName.listed [] _ = _
    rw [Ast.listed_nil]
  constructor
  · rw [hnodes]
    decide
  · exact fun i _ => Bool.false_ne_true
  · exact fun i _ => ⟨∅, rfl, fun e he => absurd he List.not_mem_nil⟩
  · rw [hnodes]
    simp [fileWithName, Ast.links, Ast.node, Ast.name?]
  · rw [hnodes]
    simp [fileWithName, Ast.links, Ast.node, Ast.identity]

end CodeGraph.Conversion

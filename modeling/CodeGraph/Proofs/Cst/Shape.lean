import CodeGraph.Cst.Shape
import CodeGraph.Proofs.Attempt
import CodeGraph.Proofs.Cst.Order
import CodeGraph.Proofs.SyntaxTree.Shape

/-!
# The shape of a syntax tree is sound

`Copies` says what holds when so many kept rows have become nodes; `Copies.addRow` is the step to
one more. The tree of all kept rows of a source in pre-order is sound (`Copies.sound`).
-/

namespace CodeGraph.Outline

open Attempt SyntaxTree

/-- Whether the nodes of a tree are made of the kept rows. -/
def Carries (o : Outline) (t : SyntaxTree) : Prop :=
  ∀ (k : Nat) (x : Node), t.nodes[k]? = some x → ∃ i r, o.kept[k]? = some i ∧
    o.cst.rows[i]? = some r ∧ o.nodeData i r = .ok x.data

/-- A syntax tree made of the first kept rows. -/
structure Copies (o : Outline) (t : SyntaxTree) (count : Nat) : Prop where
  size : t.size = count
  root : t.rootKey = if count = 0 then none else some 0
  parents : ∀ k, t.parentKey? k = if k < count then o.parentKey? k else none
  data : o.Carries t
  shaped : t.Shaped

variable {o : Outline} {t t' : SyntaxTree}

theorem copies_empty (o : Outline) (number : UInt32) (path : String) :
    o.Copies ((SyntaxTree.empty number).setSourcePath path) 0 where
  size := rfl
  root := rfl
  parents _ := rfl
  data _ _ h := by cases h
  shaped _ _ h := by cases h

theorem simple_of_nodeData {i : Nat} {r : Cst.Row} {data : NodeData}
    (h : o.nodeData i r = .ok data) : data.simple = o.tables.isSimpleName r.kind := by
  rw [nodeData, bind_eq, bind_eq_ok_iff] at h
  obtain ⟨text, -, h⟩ := h
  cases h
  rfl

theorem Carries.simple (h : o.Carries t) {k : Nat} {x : Node} (hx : t.nodes[k]? = some x) :
    ∃ i, o.kept[k]? = some i ∧ x.data.simple = o.tables.isSimpleName (o.cst.kind i) := by
  obtain ⟨i, r, hi, hr, hdata⟩ := h k x hx
  refine ⟨i, hi, ?_⟩
  rw [simple_of_nodeData hdata, Cst.kind, hr]
  rfl

theorem addRow_eq_ok {i : Nat} {r : Cst.Row} (hr : o.cst.rows[i]? = some r)
    (h : o.addRow t i = .ok t') :
    ∃ data, o.nodeData i r = .ok data ∧ t' = t.addBelow data (o.scopes i).head? := by
  simp only [addRow, hr] at h
  rw [bind_eq, bind_eq_ok_iff] at h
  obtain ⟨data, hdata, h⟩ := h
  refine ⟨data, hdata, ?_⟩
  cases hparent : (o.scopes i).head? with
  | none =>
    rw [hparent] at h
    exact (Except.ok.inj h).symm
  | some parent =>
    rw [hparent] at h
    exact (Except.ok.inj h).symm

theorem Copies.addRow {count : Nat} (h : o.Copies t count) (ho : o.Ordered) {i : Nat}
    (hi : o.kept[count]? = some i) (hadd : o.addRow t i = .ok t') : o.Copies t' (count + 1) := by
  have hlt : i < o.cst.rows.size := ho.inside i (List.mem_of_getElem? hi)
  have hr : o.cst.rows[i]? = some o.cst.rows[i] := Array.getElem?_eq_getElem hlt
  obtain ⟨data, hdata, rfl⟩ := addRow_eq_ok hr hadd
  have hkey : o.parentKey? count = (o.scopes i).head? := by
    rw [Outline.parentKey?, hi, Option.bind_some]
  rw [← hkey]
  -- A parent has a smaller key, and so its node is there already.
  have hparent : ∀ p ∈ o.parentKey? count, p < t.size := fun p hp =>
    h.size ▸ ho.parentKey?_lt hp
  have hrange : ∀ k p, t.parentKey? k = some p → p < t.size := fun k p hp => by
    rw [h.parents] at hp
    split at hp
    · next hk => exact h.size ▸ Nat.lt_trans (ho.parentKey?_lt hp) hk
    · cases hp
  constructor
  case size => rw [size_addBelow, h.size]
  case root =>
    rw [rootKey_addBelow, h.root, h.size]
    cases count <;> rfl
  case parents =>
    intro k
    rw [parentKey?_addBelow hparent, h.parents, h.size]
    by_cases hk : k = count
    · subst hk
      rw [if_pos rfl, if_pos (Nat.lt_succ_self _)]
    · rw [if_neg hk]
      simp only [Nat.lt_succ_iff_lt_or_eq, hk, or_false]
  case data =>
    intro k x hx
    rw [getElem?_addBelow hparent] at hx
    split at hx
    · next hk =>
      cases hx
      rw [hk, h.size]
      exact ⟨i, _, hi, hr, hdata⟩
    · split at hx
      · obtain ⟨y, hy, rfl⟩ := Option.map_eq_some_iff.1 hx
        exact h.data k y hy
      · exact h.data k x hx
  case shaped => exact h.shaped.addBelow hrange hparent

theorem Copies.foldlM (ho : o.Ordered) {done rest : List Nat} (hkept : o.kept = done ++ rest)
    (h : o.Copies t done.length) (hadd : rest.foldlM o.addRow t = .ok t') :
    o.Copies t' o.kept.length := by
  induction rest generalizing done t with
  | nil =>
    cases hadd
    rwa [hkept, List.append_nil]
  | cons i rest ih =>
    rw [List.foldlM_cons, bind_eq, bind_eq_ok_iff] at hadd
    obtain ⟨t₁, hi, hadd⟩ := hadd
    refine ih (by rw [hkept, List.append_cons]) ?_ hadd
    rw [List.length_append, List.length_singleton]
    exact h.addRow ho (by rw [hkept]; simp) hi

theorem copies_of_shape (ho : o.Ordered) {number : UInt32} {path : String}
    (h : o.shape number path = .ok t) : o.Copies t o.kept.length := by
  have hnone : o.Copies _ ([] : List Nat).length := copies_empty o number path
  exact hnone.foldlM ho rfl h

theorem Copies.linked (h : o.Copies t o.kept.length) {k target : Nat} {x : Node}
    {relation : Relation} (hx : t.nodes[k]? = some x) (hlink : Linked x.links relation target) :
    relation = .structural ∧ target ∈ t.keysBelow k := by
  obtain ⟨targets, he, htarget⟩ := hlink
  rw [h.shaped k x hx, shapeLinks] at he
  split at he
  · cases he
  · cases List.mem_singleton.1 he
    exact ⟨rfl, htarget⟩

theorem Copies.sound (h : o.Copies t o.kept.length) (ho : o.Ordered) : t.Sound := by
  have hparents : ∀ {k p}, t.parentKey? k = some p → k < t.size ∧ o.parentKey? k = some p := by
    intro k p hp
    rw [h.parents] at hp
    split at hp
    · next hk => exact ⟨h.size ▸ hk, hp⟩
    · cases hp
  have hnonempty : 0 < o.kept.length := (List.getElem?_eq_some_iff.1 ho.first).1
  constructor
  case nonempty => exact h.size ▸ hnonempty
  case small => exact h.size ▸ Nat.le_trans ho.length_kept_le ho.rows.small
  case root =>
    rw [h.root, if_neg (Nat.ne_of_gt hnonempty)]
  case top => rw [h.parents, if_pos hnonempty, ho.parentKey?_zero]
  case parents =>
    intro k hpos hk
    rw [h.size] at hk
    obtain ⟨p, hp⟩ := ho.exists_parentKey? hpos hk
    exact ⟨p, ho.parentKey?_lt hp, by rw [h.parents, if_pos hk, hp]⟩
  case noReturn =>
    intro k l m p hkl hlm hp hpk hkm
    exact ho.parentKey?_ne hkl hlm (hparents hp).2 hpk (hparents hkm).2
  case children =>
    intro k x hx
    rw [h.shaped k x hx, shapeLinks]
    split
    · next hnil => rw [hnil]; rfl
    · rfl
  case oneEntry =>
    intro k x hx
    rw [h.shaped k x hx, shapeLinks]
    split <;> simp
  case inRange =>
    intro k x hx relation target hlink
    exact lt_size_of_parentKey? (mem_keysBelow_iff.1 (h.linked hx hlink).2)

theorem Copies.regular (h : o.Copies t o.kept.length) (ho : o.Ordered) : t.Regular := by
  refine ⟨h.sound ho, fun k x hx target hlink => ?_⟩
  exact absurd (h.linked hx hlink).1 (by decide)

end CodeGraph.Outline

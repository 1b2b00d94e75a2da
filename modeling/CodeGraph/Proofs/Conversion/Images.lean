import CodeGraph.Proofs.Conversion.Vertices
import CodeGraph.Proofs.EdgeWalk.Images

/-!
# Converting an image

The first half of a conversion takes up a structure and an image of it side by side: after as many
nodes, both have the same graph and counter, and lead nodes and their images to the same vertices
(`Shown`). If one fails the other does, with the same error but for the identity in it
(`follows_foldlM_addVertex`). The changes of the second half are then those of `EdgeWalk.Images`.
-/

namespace CodeGraph

/-- The error with another identity in it. -/
def ConversionError.rename (rename : NodeId → NodeId) : ConversionError → ConversionError
  | duplicateNode kind identity => duplicateNode kind (rename identity)
  | e => e

namespace Ast.Image

variable {n m : Nat} {keep : Relation → Bool} {a : Ast n} {b : Ast m} (f : Image keep a b)

/-- The identity of the images of the nodes with an identity. -/
def identityOf (id : NodeId) : NodeId :=
  (((List.finRange n).find? (a.identity · == id)).map fun i => b.identity (f.node i)).getD id

theorem identityOf_identity (i : Fin n) :
    f.identityOf (a.identity i) = b.identity (f.node i) := by
  obtain ⟨j, hj⟩ : ∃ j, (List.finRange n).find? (a.identity · == a.identity i) = some j := by
    rw [← Option.isSome_iff_exists, List.find?_isSome]
    exact ⟨i, List.mem_finRange i, by simp⟩
  have hsame : a.identity j = a.identity i := by simpa using List.find?_some hj
  rw [identityOf, hj, Option.map_some, Option.getD_some]
  exact (f.identity j i).2 hsame

end Ast.Image

namespace Conversion

open Attempt EdgeWalk

/-- Whether one computation goes as another: their results are related, and their errors are the
same but for a renaming. -/
structure Follows {ε α β : Type} (related : α → β → Prop) (rename : ε → ε) (x : Except ε α)
    (y : Except ε β) : Prop where
  ok : ∀ u, x = .ok u → ∃ v, y = .ok v ∧ related u v
  error : ∀ e, x = .error e → y = .error (rename e)

theorem follows_ok {ε α β : Type} {related : α → β → Prop} {rename : ε → ε} {u : α} {v : β}
    (h : related u v) : Follows related rename (.ok u) (.ok v) := by
  constructor
  · intro w hw
    cases hw
    exact ⟨v, rfl, h⟩
  · intro e he
    cases he

theorem follows_error {ε α β : Type} {related : α → β → Prop} {rename : ε → ε} (e : ε) :
    Follows related rename (.error e) (.error (rename e)) := by
  constructor
  · intro w hw
    cases hw
  · intro e' he
    cases he
    rfl

variable {n m : Nat} {keep : Relation → Bool} {a : Ast n} {b : Ast m} (f : Ast.Image keep a b)

/-- Whether a conversion has taken up the images of the nodes that another has. -/
structure Shown (c d : Conversion) : Prop where
  graph : d.graph = c.graph
  nextId : d.nextId = c.nextId
  handles : ∀ i, d.handles[b.identity (f.node i)]? = c.handles[a.identity i]?

theorem shown_empty : Shown f ∅ ∅ := by
  refine ⟨rfl, rfl, fun i => ?_⟩
  change (∅ : Std.TreeMap NodeId Nat)[_]? = (∅ : Std.TreeMap NodeId Nat)[_]?
  simp

variable {f} {source : AttributeSource n} {source' : AttributeSource m} {c d : Conversion}

/-! ## Vertices -/

theorem properties_image (i : Fin n) (extra : Record String) :
    properties b (f.node i) extra = properties a i extra := by
  have hparent := f.parentKind i
  unfold properties
  rw [f.kind, f.text]
  cases ha : a.parent? i with
  | none =>
    rw [ha, Option.map_none, Option.map_eq_none_iff] at hparent
    rw [hparent]
  | some parent =>
    rw [ha, Option.map_some, Option.map_eq_some_iff] at hparent
    obtain ⟨parent', hb, hkind⟩ := hparent
    rw [hb]
    simp only [hkind]

theorem extraAttributes_image {i : Fin n} (hsource : source' (f.node i) = source i) :
    extraAttributes b source' (f.node i) = extraAttributes a source i := by
  unfold extraAttributes
  rw [hsource, f.kind]

theorem Shown.withVertex (h : Shown f c d) (i : Fin n) (extra : Record String) :
    Shown f (c.withVertex a i extra) (d.withVertex b (f.node i) extra) := by
  constructor
  case graph =>
    unfold Conversion.withVertex
    rw [h.graph, h.nextId, properties_image]
  case nextId =>
    unfold Conversion.withVertex
    rw [h.nextId]
  case handles =>
    intro j
    rw [getElem?_withVertex, getElem?_withVertex, h.graph, h.handles]
    simp only [f.identity]

theorem Shown.follows_addVertex (h : Shown f c d) {i : Fin n}
    (hsource : source' (f.node i) = source i) :
    Follows (Shown f) (ConversionError.rename f.identityOf) (addVertex a source c i)
      (addVertex b source' d (f.node i)) := by
  have hknown : d.handles.contains (b.identity (f.node i)) = c.handles.contains (a.identity i) := by
    rw [Std.TreeMap.contains_eq_isSome_getElem?, Std.TreeMap.contains_eq_isSome_getElem?,
      h.handles]
  rw [addVertex_eq, addVertex_eq, hknown, extraAttributes_image hsource, f.kind]
  by_cases hc : c.handles.contains (a.identity i) = true
  · rw [if_pos hc, if_pos hc]
    rw [← f.identityOf_identity]
    exact follows_error (ConversionError.duplicateNode (a.kind i) (a.identity i))
  · rw [if_neg hc, if_neg hc]
    cases hextra : extraAttributes a source i with
    | ok extra => exact follows_ok (h.withVertex i extra)
    | error e =>
      -- What is wrong with attributes has no identity in it.
      have hrename : e.rename f.identityOf = e := by
        unfold extraAttributes at hextra
        split at hextra
        · cases hextra
          rfl
        · split at hextra <;> cases hextra
          rfl
      rw [error_map, error_map]
      nth_rewrite 2 [← hrename]
      exact follows_error e

theorem Shown.follows_foldlM_addVertex (h : Shown f c d)
    (hsource : ∀ i, source' (f.node i) = source i) (nodes : List (Fin n)) :
    Follows (Shown f) (ConversionError.rename f.identityOf) (nodes.foldlM (addVertex a source) c)
      ((nodes.map f.node).foldlM (addVertex b source') d) := by
  induction nodes generalizing c d with
  | nil => exact follows_ok h
  | cons i rest ih =>
    rw [List.map_cons, List.foldlM_cons, List.foldlM_cons, bind_eq, bind_eq]
    have hstep := h.follows_addVertex (hsource i)
    cases hi : addVertex a source c i with
    | ok c₁ =>
      obtain ⟨d₁, hd₁, h₁⟩ := hstep.ok c₁ hi
      rw [hd₁, ok_bind, ok_bind]
      exact ih h₁
    | error e =>
      rw [hstep.error e hi, error_bind, error_bind]
      exact follows_error e

/-! ## Both halves -/

theorem add_eq_ok_iff {root : Fin n} {c' : Conversion} :
    c.add a source root = .ok c' ↔
      ∃ c₁ changes, (a.preorder root).foldlM (addVertex a source) c = .ok c₁ ∧
        changesWithin a (c₁.handles[·]?) (n + 1) root = .ok changes ∧
        { c₁ with graph := changes.foldl Change.apply c₁.graph } = c' := by
  rw [add_eq, bind_eq_ok_iff]
  constructor
  · rintro ⟨c₁, hvertices, hadd⟩
    obtain ⟨g, hstart, rfl⟩ := map_eq_ok_iff.1 hadd
    rw [start_eq] at hstart
    obtain ⟨changes, hchanges, rfl⟩ := map_eq_ok_iff.1 hstart
    exact ⟨c₁, changes, hvertices, hchanges, rfl⟩
  · rintro ⟨c₁, changes, hvertices, hchanges, rfl⟩
    refine ⟨c₁, hvertices, ?_⟩
    rw [start_eq, hchanges]
    rfl

theorem Shown.cacheImage (h : Shown f c d) {exact : Prop}
    (hall : exact → ∀ relation, keep relation = true) :
    CacheImage f exact id (c.handles[·]?) (d.handles[·]?) where
  cached i _ hi := (h.handles i).trans hi
  missing _ i hi := (h.handles i).trans hi
  all := hall

end Conversion

end CodeGraph

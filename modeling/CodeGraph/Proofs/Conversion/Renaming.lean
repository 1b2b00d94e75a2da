import CodeGraph.Proofs.Conversion.Concatenation
import CodeGraph.Proofs.Conversion.Images
import CodeGraph.Proofs.SyntaxTree.Images

/-!
# Conversion under other identities

What becomes of a tree does not depend on what the identities of its nodes are, but only on which
nodes share one. A `Renaming` pairs the nodes of two structures that are the same but for their
identities; converting both gives the same graph, or the same error about the same node
(`graphOf_renaming`). Two syntax trees with the same nodes are such structures, whatever their
numbers.
-/

namespace CodeGraph

/-! ## Renamings -/

/-- A pairing of the nodes of two structures that preserves all but the identities, and of these
which are equal. -/
structure Ast.Renaming {n m : Nat} (a : Ast n) (b : Ast m) where
  node : Fin n ≃ Fin m
  kind : ∀ i, b.kind (node i) = a.kind i
  text : ∀ i, b.text (node i) = a.text i
  name? : ∀ i, b.name? (node i) = a.name? i
  parentKind : ∀ i, (b.parent? (node i)).map b.kind = (a.parent? i).map a.kind
  links : ∀ i, b.links (node i) = (a.links i).map fun e => (e.1, e.2.map node)
  identity : ∀ i j, b.identity (node i) = b.identity (node j) ↔ a.identity i = a.identity j

namespace Ast.Renaming

variable {n m : Nat} {a : Ast n} {b : Ast m}

/-- A renamed structure shows in full. -/
def image (r : a.Renaming b) : Image (fun _ => true) a b where
  node := r.node
  size := by simpa using Fintype.card_congr r.node
  kind := r.kind
  text := r.text
  name? := r.name?
  parentKind := r.parentKind
  links i := by
    rw [r.links]
    simp
  identity := r.identity

/-- The identity that a node with some identity has in the other structure. -/
def identityOf (r : a.Renaming b) (id : NodeId) : NodeId := r.image.identityOf id

end Ast.Renaming

namespace EdgeWalk

open Attempt

variable {n : Nat} {a : Ast n} {vertexOf : NodeId → Option Nat}

/-! ## Errors without an identity -/

theorem rename_of_resolve (rename : NodeId → NodeId) {relation : Relation} {source : String}
    {i : Fin n} {e : ConversionError} (h : resolve a vertexOf relation source i = .error e) :
    e.rename rename = e := by
  unfold resolve at h
  split at h
  · cases h
  · cases h
    rfl

theorem rename_of_mapM_typeName (rename : NodeId → NodeId) {source : String}
    {targets : List (Fin n)} {e : ConversionError}
    (h : targets.mapM (typeName a source) = .error e) : e.rename rename = e := by
  rw [← failure?_eq_some_iff, failure?_mapM] at h
  obtain ⟨target, -, h⟩ := List.exists_of_findSome?_eq_some h
  rw [failure?_eq_some_iff] at h
  unfold typeName at h
  split at h
  · cases h
  · cases h
    rfl

/-- The errors of an edge walk have no identity in them. -/
theorem rename_of_changesWithin (rename : NodeId → NodeId) {depth : Nat} {i : Fin n}
    {e : ConversionError} (h : changesWithin a vertexOf depth i = .error e) :
    e.rename rename = e := by
  induction depth generalizing i with
  | zero =>
    cases h
    rfl
  | succ depth ih =>
    rcases bind_eq_error_iff.1 h with hown | ⟨vertex, -, hlinks⟩
    · exact rename_of_resolve rename hown
    · obtain ⟨⟨relation, targets⟩, -, hentry⟩ := exists_of_gather_eq_error hlinks
      cases relation with
      | structural =>
        obtain ⟨child, -, hchild⟩ := exists_of_gather_eq_error hentry
        rcases bind_eq_error_iff.1 hchild with hres | ⟨handle, -, hbelow⟩
        · exact rename_of_resolve rename hres
        · exact ih (map_eq_error_iff.1 hbelow)
      | type => exact rename_of_mapM_typeName rename (map_eq_error_iff.1 hentry)
      | _ =>
        obtain ⟨target, -, htarget⟩ := exists_of_gather_eq_error hentry
        exact rename_of_resolve rename (map_eq_error_iff.1 htarget)

end EdgeWalk

namespace Conversion

open Attempt EdgeWalk

variable {n m : Nat} {a : Ast n} {b : Ast m} {source : AttributeSource n}
  {source' : AttributeSource m}

theorem filterMap_image?_id (changes : List Change) :
    changes.filterMap (Change.image? (fun _ => true) id) = changes := by
  have hsome : Change.image? (fun _ => true) id = some := by
    funext change
    cases change <;> rfl
  rw [hsome, List.filterMap_some]

theorem Shown.start_eq {f : Ast.Image (fun _ => true) a b} {c d : Conversion} (h : Shown f c d)
    (root : Fin n) :
    EdgeWalk.start b (d.handles[·]?) d.graph (f.node root) =
      (EdgeWalk.start a (c.handles[·]?) c.graph root).mapError (.rename f.identityOf) := by
  have hcache : CacheImage f True id (c.handles[·]?) (d.handles[·]?) := h.cacheImage fun _ _ => rfl
  have hshows := shows_changes hcache rfl root
  rw [EdgeWalk.start_eq, EdgeWalk.start_eq, h.graph]
  cases hchanges : changesWithin a (c.handles[·]?) (n + 1) root with
  | ok changes =>
    rw [hshows.1 changes hchanges, filterMap_image?_id]
    rfl
  | error e =>
    rw [hshows.2 trivial e hchanges, error_map]
    exact congrArg Except.error (rename_of_changesWithin f.identityOf hchanges).symm

theorem graphOf_image (f : Ast.Image (fun _ => true) a b)
    (hsource : ∀ i, source' (f.node i) = source i) (root : Fin n) :
    graphOf b source' (f.node root) = (graphOf a source root).mapError (.rename f.identityOf) := by
  have hfollows := (shown_empty f).follows_foldlM_addVertex hsource (a.preorder root)
  change ((∅ : Conversion).add b source' (f.node root)).map _ =
    (((∅ : Conversion).add a source root).map _).mapError _
  rw [add_eq, add_eq, f.preorder_eq rfl]
  cases hvertices : (a.preorder root).foldlM (addVertex a source) ∅ with
  | ok c =>
    obtain ⟨d, hd, h⟩ := hfollows.ok c hvertices
    rw [hd, ok_bind, ok_bind, h.start_eq root]
    cases EdgeWalk.start a (c.handles[·]?) c.graph root <;> rfl
  | error e =>
    rw [hfollows.error e hvertices]
    rfl

theorem sourceAttributes_cast {t u : SyntaxTree} (h : t.nodes = u.nodes)
    (hpath : t.sourcePath = u.sourcePath) (spans : Bool) (i : Fin t.size) :
    u.sourceAttributes spans (i.cast (SyntaxTree.size_eq_of_nodes h)) =
      t.sourceAttributes spans i := by
  obtain ⟨number, nodes, rootKey, path⟩ := t
  obtain ⟨number', nodes', rootKey', path'⟩ := u
  cases h
  cases hpath
  rfl

theorem graphOf_cast_iff {t u : SyntaxTree} (h : t.nodes = u.nodes)
    {source : AttributeSource t.size} {source' : AttributeSource u.size}
    (hsource : ∀ i, source' (i.cast (SyntaxTree.size_eq_of_nodes h)) = source i)
    (root : Fin t.size) {g : PropertyGraph} :
    graphOf u.ast source' (root.cast (SyntaxTree.size_eq_of_nodes h)) = .ok g ↔
      graphOf t.ast source root = .ok g := by
  have hall : u.nodes = t.nodes.map (SyntaxTree.Node.restrict fun _ => true) := by
    rw [SyntaxTree.map_restrict_true, h]
  have hgraph : graphOf u.ast source' (root.cast (SyntaxTree.size_eq_of_nodes h)) =
      (graphOf t.ast source root).mapError _ :=
    graphOf_image (SyntaxTree.image hall) hsource root
  rw [hgraph, mapError_eq_ok_iff]

/-- **Identities do not matter.** Structures that are the same but for their identities become the
same graph, from corresponding roots and with attributes that correspond, or fail with the same
error, in which a node met twice has the identity it has there. Syntax trees with the same nodes
become the same graph, whatever their numbers. -/
theorem graphOf_renaming :
    (∀ {n m : Nat} {a : Ast n} {b : Ast m} (r : a.Renaming b) {source : AttributeSource n}
        {source' : AttributeSource m}, (∀ i, source' (r.node i) = source i) → ∀ root,
      graphOf b source' (r.node root) = (graphOf a source root).mapError (.rename r.identityOf) ∧
      ∀ i, r.identityOf (a.identity i) = b.identity (r.node i)) ∧
    ∀ {t u : SyntaxTree} (h : t.nodes = u.nodes) (root : Fin t.size) (g : PropertyGraph),
      (∀ {source : AttributeSource t.size} {source' : AttributeSource u.size},
        (∀ i, source' (i.cast (SyntaxTree.size_eq_of_nodes h)) = source i) →
        (graphOf u.ast source' (root.cast (SyntaxTree.size_eq_of_nodes h)) = .ok g ↔
          graphOf t.ast source root = .ok g)) ∧
      (t.sourcePath = u.sourcePath → ∀ spans,
        (graphOf u.ast (u.sourceAttributes spans)
            (root.cast (SyntaxTree.size_eq_of_nodes h)) = .ok g ↔
          graphOf t.ast (t.sourceAttributes spans) root = .ok g)) := by
  refine ⟨?_, ?_⟩
  · intro n m a b r source source' hsource root
    exact ⟨graphOf_image r.image hsource root, r.image.identityOf_identity⟩
  · intro t u h root g
    have hsame : ∀ {source : AttributeSource t.size} {source' : AttributeSource u.size},
        (∀ i, source' (i.cast (SyntaxTree.size_eq_of_nodes h)) = source i) →
        (graphOf u.ast source' (root.cast (SyntaxTree.size_eq_of_nodes h)) = .ok g ↔
          graphOf t.ast source root = .ok g) := fun hsource => graphOf_cast_iff h hsource root
    exact ⟨hsame, fun hpath spans => hsame (sourceAttributes_cast h hpath spans)⟩

/-- The file of `namedFile` with its nodes the other way round. -/
def namedFileBackwards : Ast 2 :=
  ⟨#v[⟨4, "Name", "x", some node₁, some "x", [(.type, [node₀])]⟩,
    ⟨3, "File", "x", none, none, [(.structural, [node₀]), (.calls, [node₀])]⟩]⟩

def backwards : (namedFile 1 2).Renaming namedFileBackwards where
  node := Equiv.swap node₀ node₁
  kind := by decide
  text := by decide
  name? := by decide
  parentKind := by decide
  links := by decide
  identity := by decide

def leafTree (number : UInt32) : SyntaxTree :=
  (SyntaxTree.empty number).addNode ⟨"Leaf", "x", true, none, none⟩

theorem graphOf_renaming_backwards :
    graphOf namedFileBackwards .none node₁ = .ok namedFileGraph ∧
    ∃ g, graphOf (leafTree 1).ast ((leafTree 1).sourceAttributes true) ⟨0, by decide⟩ = .ok g ∧
      graphOf (leafTree 2).ast ((leafTree 2).sourceAttributes true) ⟨0, by decide⟩ = .ok g := by
  constructor
  · have hgraph : graphOf namedFileBackwards .none node₁ =
        (graphOf (namedFile 1 2) .none node₀).mapError (.rename backwards.identityOf) :=
      (graphOf_renaming.1 backwards (fun _ => rfl) node₀).1
    rw [hgraph, graphOf_namedFile.1]
    rfl
  · have hleaf : ∃ g, graphOf (leafTree 1).ast ((leafTree 1).sourceAttributes true)
        ⟨0, by decide⟩ = .ok g := by
      have hnodes : (leafTree 1).ast.preorder ⟨0, by decide⟩ = [⟨0, by decide⟩] := by
        rw [Ast.preorder_eq_listed, Ast.listed_cons_fresh _ (by simp)]
        change _ :: (leafTree 1).ast.listed [] _ = _
        rw [Ast.listed_nil]
      simp only [graphOf, add_eq, start_eq, hnodes]
      exact ⟨_, rfl⟩
    obtain ⟨g, hg⟩ := hleaf
    have hsame := (graphOf_renaming.2 (t := leafTree 1) (u := leafTree 2) rfl ⟨0, by decide⟩ g).2
    exact ⟨g, hg, (hsame rfl true).2 hg⟩

end Conversion

end CodeGraph

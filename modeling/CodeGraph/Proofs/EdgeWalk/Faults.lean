import CodeGraph.Proofs.Ast.Links
import CodeGraph.Proofs.EdgeWalk.Arcs

/-!
# Links that cannot be followed

Over a forest whose nodes have one structural entry at most, a walk that may go deep enough fails
with the fault of the first link that has one, and else ends (`failure?_changesWithin`). If it ends,
its edges stand for the links other than types, in order (`exists_links_of_start`).
-/

namespace CodeGraph

variable {n : Nat}

/-- Why a link cannot be followed: a type target must spell a name, any other must be cached. -/
def Ast.linkFault? (a : Ast n) (cached : NodeId → Bool) (l : Ast.Link n) : Option ConversionError :=
  if l.relation = .type then
    if (a.name? l.target).isSome then none
    else some (.unresolved .type (a.kind l.source) (.unexpectedKind (a.kind l.target)))
  else if cached (a.identity l.target) then none
  else some (.unresolved l.relation (a.kind l.source) (.missingTarget (a.kind l.target)))

/-- An edge that stands for a link other than a type. It leads between the vertices of the two
nodes, under the ids that these have, and has the relation as its label and as its only property. -/
structure Arc.StandsFor (x : Arc) (a : Ast n) (vertexOf : NodeId → Option Nat)
    (idAt : Nat → Option Nat) (l : Ast.Link n) : Prop where
  relation : l.relation ≠ .type
  tail : vertexOf (a.identity l.source) = some x.tail
  head : vertexOf (a.identity l.target) = some x.head
  source : idAt x.tail = some x.edge.source
  target : idAt x.head = some x.edge.target
  label : x.edge.label = l.relation.label
  properties : x.edge.properties.entries = [("type", .text l.relation.label)]

namespace EdgeWalk

open Attempt CodeGraph.Lists

variable {a : Ast n} {vertexOf : NodeId → Option Nat}

theorem structural_ne_type : Relation.structural ≠ .type := by decide

theorem failure?_resolve {relation : Relation} (h : relation ≠ .type) (i target : Fin n) :
    failure? (resolve a vertexOf relation (a.kind i) target) =
      a.linkFault? (fun id => (vertexOf id).isSome) ⟨i, relation, target⟩ := by
  rw [Ast.linkFault?, if_neg h, resolve]
  cases vertexOf (a.identity target) <;> rfl

theorem failure?_typeName (vertexOf : NodeId → Option Nat) (i target : Fin n) :
    failure? (typeName a (a.kind i) target) =
      a.linkFault? (fun id => (vertexOf id).isSome) ⟨i, .type, target⟩ := by
  rw [Ast.linkFault?, if_pos rfl, typeName]
  cases a.name? target <;> rfl

theorem failure?_entryChanges {below : Fin n → Except ConversionError (List Change)} {i : Fin n}
    {vertex depth : Nat} {entry : Relation × List (Fin n)}
    (hbelow : entry.1 = .structural → ∀ child ∈ entry.2, (vertexOf (a.identity child)).isSome →
      failure? (below child) =
        (a.linkOrder depth child).findSome? (a.linkFault? fun id => (vertexOf id).isSome)) :
    failure? (entryChanges a vertexOf below i vertex entry) =
      entry.2.findSome? fun target =>
        (⟨i, entry.1, target⟩ ::
          if entry.1 = .structural then a.linkOrder depth target else []).findSome?
          (a.linkFault? fun id => (vertexOf id).isSome) := by
  obtain ⟨relation, targets⟩ := entry
  by_cases hs : relation = .structural
  · subst hs
    rw [entryChanges, failure?_gather]
    refine findSome?_congr fun child hchild => ?_
    rw [if_pos rfl, List.findSome?_cons, ← failure?_resolve structural_ne_type]
    cases hres : resolve a vertexOf .structural (a.kind i) child with
    | error e => rfl
    | ok handle =>
      have hcached := resolve_eq_ok_iff.1 hres
      rw [ok_bind, failure?_map]
      exact hbelow rfl child hchild (by rw [hcached]; rfl)
  · simp only [if_neg hs, List.findSome?_cons, List.findSome?_nil]
    by_cases ht : relation = .type
    · subst ht
      rw [entryChanges, failure?_map, failure?_mapM]
      refine findSome?_congr fun target _ => ?_
      rw [failure?_typeName vertexOf]
      cases a.linkFault? _ _ <;> rfl
    · rw [entryChanges_semantic hs ht, failure?_gather]
      refine findSome?_congr fun target _ => ?_
      rw [failure?_map, failure?_resolve ht]
      cases a.linkFault? _ _ <;> rfl

/-- The walk below the roots of a forest fails with the fault of the first link that has one. -/
theorem failure?_changesWithin {roots nodes : List (Fin n)} (h : a.Spans roots nodes)
    (hone : ∀ i ∈ nodes, a.structuralCount i ≤ 1) {depth : Nat} (hdepth : nodes.length ≤ depth) :
    ∀ i ∈ roots, (vertexOf (a.identity i)).isSome →
      failure? (changesWithin a vertexOf depth i) =
        (a.linkOrder depth i).findSome? (a.linkFault? fun id => (vertexOf id).isSome) := by
  -- The induction is on the forest: below each root it is smaller, and so is the depth it takes.
  induction h generalizing depth with
  | nil => exact fun i hi => absurd hi List.not_mem_nil
  | @cons i rest below others hbelow hothers ihBelow ihOthers =>
    simp only [List.length_cons, List.length_append] at hdepth
    intro j hj hcached
    rcases List.mem_cons.1 hj with rfl | hj
    · obtain ⟨depth, rfl⟩ : ∃ d, depth = d + 1 := ⟨depth - 1, by omega⟩
      obtain ⟨vertex, hvertex⟩ := Option.isSome_iff_exists.1 hcached
      rw [changesWithin, resolve_eq_ok_iff.2 hvertex, ok_bind, failure?_gather, Ast.linkOrder,
        findSome?_flatMap]
      refine findSome?_congr fun entry hentry => ?_
      rw [findSome?_flatMap]
      refine failure?_entryChanges fun hrel child hchild hcached => ?_
      obtain ⟨relation, targets⟩ := entry
      simp only at hrel hchild
      subst hrel
      rw [← Ast.children_eq_of_mem (hone j (by simp)) hentry] at hchild
      exact ihBelow (fun k hk => hone k (by simp [hk])) (by omega) child hchild hcached
    · exact ihOthers (fun k hk => hone k (by simp [hk])) (by omega) j hj hcached

/-! ## The edges of a walk that ends -/

/-- The edge for a link other than a type, in a graph with certain ids. -/
def linkArc? (a : Ast n) (vertexOf : NodeId → Option Nat) (idAt : Nat → Option Nat)
    (l : Ast.Link n) : Option Arc :=
  if l.relation = .type then none
  else do
    let source ← vertexOf (a.identity l.source)
    let target ← vertexOf (a.identity l.target)
    Change.arc? idAt (.edge l.relation source target)

theorem linkArc?_eq {i target : Fin n} {vertex handle : Nat} {relation : Relation}
    (h : relation ≠ .type) (hvertex : vertexOf (a.identity i) = some vertex)
    (hhandle : vertexOf (a.identity target) = some handle) (idAt : Nat → Option Nat) :
    linkArc? a vertexOf idAt ⟨i, relation, target⟩ =
      Change.arc? idAt (.edge relation vertex handle) := by
  rw [linkArc?, if_neg h, hvertex, hhandle]
  rfl

theorem standsFor_of_linkArc? {idAt : Nat → Option Nat} {l : Ast.Link n} {x : Arc}
    (h : linkArc? a vertexOf idAt l = some x) : x.StandsFor a vertexOf idAt l := by
  rw [linkArc?] at h
  split at h
  · cases h
  · next hrel =>
    simp only [Change.arc?, Option.bind_eq_bind, Option.bind_eq_some_iff, Option.some.injEq] at h
    obtain ⟨tail, htail, head, hhead, source, hsource, target, htarget, rfl⟩ := h
    exact ⟨hrel, htail, hhead, hsource, htarget, rfl, entries_edgeProperties l.relation⟩

theorem isSome_linkArc? {idAt : Nat → Option Nat} {l : Ast.Link n} (hrel : l.relation ≠ .type)
    {v w : Nat} (hsource : (vertexOf (a.identity l.source)).bind idAt = some v)
    (htarget : (vertexOf (a.identity l.target)).bind idAt = some w) :
    (linkArc? a vertexOf idAt l).isSome := by
  obtain ⟨tail, htail, hv⟩ := Option.bind_eq_some_iff.1 hsource
  obtain ⟨head, hhead, hw⟩ := Option.bind_eq_some_iff.1 htarget
  rw [linkArc?, if_neg hrel, htail, hhead]
  simp [Change.arc?, hv, hw]

theorem filterMap_arc?_entryChanges {below : Fin n → Except ConversionError (List Change)}
    {i : Fin n} {vertex depth : Nat} {entry : Relation × List (Fin n)} {changes : List Change}
    {idAt : Nat → Option Nat} (hvertex : vertexOf (a.identity i) = some vertex)
    (hbelow : ∀ child deeper, below child = .ok deeper →
      deeper.filterMap (Change.arc? idAt) =
        (a.linkOrder depth child).filterMap (linkArc? a vertexOf idAt))
    (h : entryChanges a vertexOf below i vertex entry = .ok changes) :
    changes.filterMap (Change.arc? idAt) =
      (entry.2.flatMap fun target => ⟨i, entry.1, target⟩ ::
        if entry.1 = .structural then a.linkOrder depth target else []).filterMap
        (linkArc? a vertexOf idAt) := by
  obtain ⟨relation, targets⟩ := entry
  by_cases hs : relation = .structural
  · subst hs
    refine filterMap_gather h _ _ _ fun child _ ys hys => ?_
    obtain ⟨handle, hres, hys⟩ := bind_eq_ok_iff.1 hys
    obtain ⟨deeper, hdeeper, rfl⟩ := map_eq_ok_iff.1 hys
    rw [if_pos rfl, List.filterMap_cons, List.filterMap_cons, hbelow child deeper hdeeper,
      linkArc?_eq structural_ne_type hvertex (resolve_eq_ok_iff.1 hres)]
  · simp only [if_neg hs]
    by_cases ht : relation = .type
    · subst ht
      obtain ⟨names, -, rfl⟩ := map_eq_ok_iff.1 h
      rw [List.filterMap_flatMap, List.filterMap_cons]
      exact (List.flatMap_eq_nil_iff.2 fun target _ => by simp [linkArc?]).symm
    · rw [entryChanges_semantic hs ht] at h
      refine filterMap_gather h _ _ _ fun target _ ys hys => ?_
      obtain ⟨handle, hres, rfl⟩ := map_eq_ok_iff.1 hys
      rw [List.filterMap_cons, List.filterMap_cons,
        linkArc?_eq ht hvertex (resolve_eq_ok_iff.1 hres)]
      rfl

theorem filterMap_arc?_changesWithin {depth : Nat} {i : Fin n} {changes : List Change}
    (h : changesWithin a vertexOf depth i = .ok changes) (idAt : Nat → Option Nat) :
    changes.filterMap (Change.arc? idAt) =
      (a.linkOrder depth i).filterMap (linkArc? a vertexOf idAt) := by
  induction depth generalizing i changes with
  | zero => cases h
  | succ depth ih =>
    obtain ⟨vertex, hres, hall⟩ := bind_eq_ok_iff.1 h
    exact filterMap_gather hall _ _ _ fun entry _ ys hys =>
      filterMap_arc?_entryChanges (resolve_eq_ok_iff.1 hres) (fun _ _ => ih) hys

theorem cached_of_mem_linkOrder {depth : Nat} {i : Fin n} {changes : List Change}
    (h : changesWithin a vertexOf depth i = .ok changes) {l : Ast.Link n}
    (hl : l ∈ a.linkOrder depth i) (hrel : l.relation ≠ .type) :
    (∃ tail, vertexOf (a.identity l.source) = some tail) ∧
      ∃ head, vertexOf (a.identity l.target) = some head := by
  induction depth generalizing i changes with
  | zero => cases h
  | succ depth ih =>
    obtain ⟨vertex, hres, hall⟩ := bind_eq_ok_iff.1 h
    rcases Ast.mem_linkOrder_succ.1 hl with hown | ⟨targets, hentry, child, hmem, hl⟩
    · obtain ⟨rfl, targets, hentry, hmem⟩ := Ast.mem_nodeLinks.1 hown
      obtain ⟨ys, hys⟩ := exists_of_gather_eq_ok hall _ hentry
      refine ⟨⟨vertex, resolve_eq_ok_iff.1 hres⟩, ?_⟩
      by_cases hs : l.relation = .structural
      · rw [hs] at hys
        obtain ⟨zs, hzs⟩ := exists_of_gather_eq_ok hys _ hmem
        obtain ⟨handle, hhandle, -⟩ := bind_eq_ok_iff.1 hzs
        exact ⟨handle, resolve_eq_ok_iff.1 hhandle⟩
      · rw [entryChanges_semantic hs hrel] at hys
        obtain ⟨zs, hzs⟩ := exists_of_gather_eq_ok hys _ hmem
        obtain ⟨handle, hhandle, -⟩ := map_eq_ok_iff.1 hzs
        exact ⟨handle, resolve_eq_ok_iff.1 hhandle⟩
    · obtain ⟨ys, hys⟩ := exists_of_gather_eq_ok hall _ hentry
      obtain ⟨zs, hzs⟩ := exists_of_gather_eq_ok hys child hmem
      obtain ⟨handle, -, hzs⟩ := bind_eq_ok_iff.1 hzs
      obtain ⟨deeper, hdeeper, -⟩ := map_eq_ok_iff.1 hzs
      exact ih hdeeper hl

theorem vertices_of_start_eq_ok {g g' : PropertyGraph} {root : Fin n}
    (h : start a vertexOf g root = .ok g') :
    g'.vertices.size = g.vertices.size ∧ g'.idAt? = g.idAt? := by
  rw [start_eq] at h
  obtain ⟨changes, -, rfl⟩ := map_eq_ok_iff.1 h
  exact ⟨size_vertices_foldl_apply g changes, idAt?_foldl_apply g changes⟩

theorem arcs_of_start_eq_ok {g g' : PropertyGraph} {root : Fin n}
    (h : start a vertexOf g root = .ok g') :
    g'.arcs.toList =
      g.arcs.toList ++ (a.linkOrder (n + 1) root).filterMap (linkArc? a vertexOf g.idAt?) := by
  rw [start_eq] at h
  obtain ⟨changes, hchanges, rfl⟩ := map_eq_ok_iff.1 h
  rw [arcs_foldl_apply, filterMap_arc?_changesWithin hchanges]

/-- The edges that a walk adds stand for links in their order. If the cache only leads to vertices
that are there, these are all the links below the root but the types. -/
theorem exists_links_of_start {g g' : PropertyGraph} {root : Fin n}
    (h : start a vertexOf g root = .ok g') :
    ∃ added links, g'.arcs.toList = g.arcs.toList ++ added ∧
      List.Forall₂ (fun l x => x.StandsFor a vertexOf g.idAt? l) links added ∧
      links.Sublist (a.linkOrder (n + 1) root) ∧
      ((∀ id handle, vertexOf id = some handle → handle < g.vertices.size) →
        links = (a.linkOrder (n + 1) root).filter (·.relation ≠ .type)) := by
  have harcs := arcs_of_start_eq_ok h
  rw [start_eq] at h
  obtain ⟨changes, hchanges, -⟩ := map_eq_ok_iff.1 h
  refine ⟨_, (a.linkOrder (n + 1) root).filter fun l => (linkArc? a vertexOf g.idAt? l).isSome,
    harcs, forall₂_filter_filterMap fun l _ x => standsFor_of_linkArc?, List.filter_sublist,
    fun hthere => List.filter_congr fun l hl => ?_⟩
  · by_cases hrel : l.relation = .type
    · simp [linkArc?, hrel]
    · obtain ⟨⟨tail, htail⟩, head, hhead⟩ := cached_of_mem_linkOrder hchanges hl hrel
      have hid : ∀ handle < g.vertices.size, ∃ id, g.idAt? handle = some id := by
        intro handle hlt
        exact ⟨_, by rw [PropertyGraph.idAt?, Array.getElem?_eq_getElem hlt, Option.map_some]⟩
      obtain ⟨v, hv⟩ := hid tail (hthere _ _ htail)
      obtain ⟨w, hw⟩ := hid head (hthere _ _ hhead)
      rw [isSome_linkArc? hrel (by rw [htail]; exact hv) (by rw [hhead]; exact hw)]
      simp [hrel]

end EdgeWalk

end CodeGraph

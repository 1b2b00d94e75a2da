import CodeGraph.Proofs.EdgeWalk.Depth
import CodeGraph.Proofs.EdgeWalk.Faults

/-!
# The edge walk as a recursion

`Ast.edgePhase` says what the edge walk is to do without frames: at each node it goes through the
link entries in order, and at a child it calls itself before the next child. It may have no end, and
is `none` then. `start_eq_iff_edgePhase` states that the walk with frames has the same outcome
whenever the recursion ends, and that otherwise it reports that there is no end. A recursion that
ends meets finitely many nodes, so the finite structures are all there is to speak of.
-/

namespace CodeGraph

/-- The edge phase of a node: its vertex is looked up, and its link entries are taken in order. A
type entry writes the joined names, a structural entry adds the edge to each child and runs the
child's edge phase before the next, any other entry adds one edge for each target. -/
def Ast.edgePhase {n : Nat} (a : Ast n) (vertexOf : NodeId → Option Nat) (i : Fin n)
    (g : PropertyGraph) : Option (Except ConversionError PropertyGraph) := ExceptT.run do
  let some vertex := vertexOf (a.identity i)
    | throw (.unresolved .structural (a.kind i) (.missingTarget (a.kind i)))
  (a.links i).foldlM (fun g entry =>
    match entry with
    | (.type, targets) => do
      let names ← targets.mapM fun target => do
        let some name := a.name? target
          | throw (.unresolved .type (a.kind i) (.unexpectedKind (a.kind target)))
        pure name
      pure (g.setVertexProperty vertex "reference" (.text (",".intercalate names)))
    | (.structural, children) =>
      children.foldlM (fun g child => do
        let some handle := vertexOf (a.identity child)
          | throw (.unresolved .structural (a.kind i) (.missingTarget (a.kind child)))
        a |>.edgePhase vertexOf child (g.addEdge vertex handle "STRUCTURAL"
          (Record.ofList [("type", .text "STRUCTURAL")]))) g
    | (relation, targets) =>
      targets.foldlM (fun g target => do
        let some handle := vertexOf (a.identity target)
          | throw (.unresolved relation (a.kind i) (.missingTarget (a.kind target)))
        pure (g.addEdge vertex handle relation.label
          (Record.ofList [("type", .text relation.label)]))) g) g
partial_fixpoint

namespace EdgeWalk

open Attempt

variable {n : Nat}

/-! ## Steps on a graph and their changes -/

section agree

variable {α : Type} {s : PropertyGraph → α → ExceptT ConversionError Option PropertyGraph}
  {c : α → Except ConversionError (List Change)}

/-- Where a step on a graph ends, it makes the changes. -/
def Follows (s : PropertyGraph → α → ExceptT ConversionError Option PropertyGraph)
    (c : α → Except ConversionError (List Change)) : Prop :=
  ∀ g x r, (s g x).run = some r → Ended (c x) ∧ (c x).map (List.foldl Change.apply g) = r

/-- Where the changes end, a step on a graph makes them. -/
def Reaches (s : PropertyGraph → α → ExceptT ConversionError Option PropertyGraph)
    (c : α → Except ConversionError (List Change)) : Prop :=
  ∀ g x, Ended (c x) → (s g x).run = some ((c x).map (List.foldl Change.apply g))

theorem run_bind {β γ : Type} (x : ExceptT ConversionError Option β)
    (f : β → ExceptT ConversionError Option γ) :
    (x >>= f).run =
      match x.run with
      | none => none
      | some (.error e) => some (.error e)
      | some (.ok y) => (f y).run := by
  rcases x with _ | _ | _ <;> rfl

theorem Follows.foldlM (h : Follows s c) : Follows (List.foldlM s) (gather c) := by
  intro g xs
  induction xs generalizing g with
  | nil =>
    rintro r ⟨⟩
    exact ⟨ended_ok _, rfl⟩
  | cons x rest ih =>
    intro r hr
    rw [List.foldlM_cons, run_bind] at hr
    rw [gather]
    rcases hs : (s g x).run with _ | _ | g' <;> rw [hs] at hr
    · cases hr
    · obtain ⟨hEnd, hx⟩ := h g x _ hs
      cases hr
      rw [map_eq_error_iff] at hx
      rw [hx] at hEnd ⊢
      exact ⟨hEnd, rfl⟩
    · obtain ⟨-, hx⟩ := h g x _ hs
      obtain ⟨changes, hc, rfl⟩ := map_eq_ok_iff.1 hx
      obtain ⟨hEnd, hrest⟩ := ih _ r hr
      rw [hc, ok_bind, ended_map]
      refine ⟨hEnd, ?_⟩
      rw [← hrest]
      cases gather c rest with
      | error e => rfl
      | ok later => rw [ok_map, ok_map, ok_map, List.foldl_append]

theorem Reaches.foldlM (h : Reaches s c) : Reaches (List.foldlM s) (gather c) := by
  intro g xs hEnd
  induction xs generalizing g with
  | nil => rfl
  | cons x rest ih =>
    rw [gather] at hEnd
    rw [List.foldlM_cons, run_bind, gather, h g x hEnd.of_bind]
    cases hx : c x with
    | error e => rfl
    | ok changes =>
      rw [hx, ok_bind, ended_map] at hEnd
      rw [ok_map, ok_bind]
      refine (ih _ hEnd).trans ?_
      cases gather c rest with
      | error e => rfl
      | ok later => rw [ok_map, ok_map, ok_map, List.foldl_append]

theorem Follows.of_eq (hEnd : ∀ x, Ended (c x))
    (h : ∀ g x, (s g x).run = some ((c x).map (List.foldl Change.apply g))) : Follows s c := by
  intro g x r hr
  rw [h g x] at hr
  exact ⟨hEnd x, Option.some.inj hr⟩

end agree

/-! ## One entry -/

/-- What `Ast.edgePhase` does at an entry, with `phase` for itself. -/
def entryPhase (a : Ast n) (vertexOf : NodeId → Option Nat)
    (phase : Fin n → PropertyGraph → Option (Except ConversionError PropertyGraph)) (i : Fin n)
    (vertex : Nat) (g : PropertyGraph) :
    Relation × List (Fin n) → ExceptT ConversionError Option PropertyGraph
  | (.type, targets) => do
    let names ← targets.mapM fun target => do
      let some name := a.name? target
        | throw (.unresolved .type (a.kind i) (.unexpectedKind (a.kind target)))
      pure name
    pure (g.setVertexProperty vertex "reference" (.text (",".intercalate names)))
  | (.structural, children) =>
    children.foldlM (fun g child => do
      let some handle := vertexOf (a.identity child)
        | throw (.unresolved .structural (a.kind i) (.missingTarget (a.kind child)))
      phase child (g.addEdge vertex handle "STRUCTURAL"
        (Record.ofList [("type", .text "STRUCTURAL")]))) g
  | (relation, targets) =>
    targets.foldlM (fun g target => do
      let some handle := vertexOf (a.identity target)
        | throw (.unresolved relation (a.kind i) (.missingTarget (a.kind target)))
      pure (g.addEdge vertex handle relation.label
        (Record.ofList [("type", .text relation.label)]))) g

variable {a : Ast n} {vertexOf : NodeId → Option Nat}

theorem edgePhase_eq (i : Fin n) (g : PropertyGraph) :
    a.edgePhase vertexOf i g =
      match vertexOf (a.identity i) with
      | none => some (.error (.unresolved .structural (a.kind i) (.missingTarget (a.kind i))))
      | some vertex =>
        ((a.links i).foldlM (entryPhase a vertexOf (a.edgePhase vertexOf) i vertex) g).run := by
  rw [Ast.edgePhase]
  cases vertexOf (a.identity i) <;> rfl

theorem resolve_eq_error {target : Fin n} (h : vertexOf (a.identity target) = none)
    (relation : Relation) (source : String) :
    resolve a vertexOf relation source target =
      .error (.unresolved relation source (.missingTarget (a.kind target))) := by
  rw [resolve, h]

variable (a vertexOf) in
theorem ended_resolve (relation : Relation) (source : String) (i : Fin n) :
    Ended (resolve a vertexOf relation source i) := by
  unfold resolve
  cases vertexOf (a.identity i) <;> simp [Ended]

theorem ended_mapM_typeName (source : String) (targets : List (Fin n)) :
    Ended (targets.mapM (typeName a source)) := by
  induction targets with
  | nil => exact ended_ok _
  | cons target rest ih =>
    rw [mapM_cons]
    have hname : Ended (typeName a source target) := by
      unfold typeName
      cases a.name? target <;> simp [Ended]
    exact hname.bind fun name _ => ended_map.2 ih

theorem run_mapM_name (source : String) (targets : List (Fin n)) :
    (targets.mapM fun target => do
      let some name := a.name? target
        | throw (.unresolved .type source (.unexpectedKind (a.kind target)))
      pure name : ExceptT ConversionError Option (List String)).run =
    some (targets.mapM (typeName a source)) := by
  induction targets with
  | nil => rfl
  | cons target rest ih =>
    rw [List.mapM_cons, mapM_cons, run_bind, typeName]
    cases a.name? target with
    | none => rfl
    | some name =>
      refine (run_bind _ _).trans ?_
      rw [ih]
      cases rest.mapM (typeName a source) <;> rfl

section entry

variable {phase : Fin n → PropertyGraph → Option (Except ConversionError PropertyGraph)}
  {below : Fin n → Except ConversionError (List Change)} {i : Fin n} {vertex : Nat}

theorem run_entryPhase_type (below : Fin n → Except ConversionError (List Change))
    (g : PropertyGraph) (targets : List (Fin n)) :
    (entryPhase a vertexOf phase i vertex g (.type, targets)).run =
      some ((entryChanges a vertexOf below i vertex (.type, targets)).map
        (List.foldl Change.apply g)) := by
  rw [entryPhase, run_bind, run_mapM_name, entryChanges]
  cases targets.mapM (typeName a (a.kind i)) <;> rfl

theorem run_link (relation : Relation) (g : PropertyGraph) (target : Fin n) :
    (do
      let some handle := vertexOf (a.identity target)
        | throw (.unresolved relation (a.kind i) (.missingTarget (a.kind target)))
      pure (g.addEdge vertex handle relation.label
        (Record.ofList [("type", .text relation.label)])) :
      ExceptT ConversionError Option PropertyGraph).run =
    some (((resolve a vertexOf relation (a.kind i) target).map fun handle =>
      [Change.edge relation vertex handle]).map (List.foldl Change.apply g)) := by
  rw [resolve]
  cases vertexOf (a.identity target) <;> rfl

theorem follows_entryPhase
    (h : ∀ child g r, phase child g = some r →
      Ended (below child) ∧ (below child).map (List.foldl Change.apply g) = r) :
    Follows (entryPhase a vertexOf phase i vertex) (entryChanges a vertexOf below i vertex) := by
  rintro g ⟨relation, targets⟩ r hr
  cases relation with
  | type =>
    rw [run_entryPhase_type below] at hr
    refine ⟨?_, Option.some.inj hr⟩
    exact ended_map.2 (ended_mapM_typeName _ targets)
  | structural =>
    refine Follows.foldlM (fun g child r hr => ?_) g targets r hr
    have hEnd := ended_resolve a vertexOf .structural (a.kind i) child
    cases hv : vertexOf (a.identity child) with
    | none =>
      rw [hv] at hr
      rw [resolve_eq_error hv] at hEnd ⊢
      cases hr
      exact ⟨hEnd.bind (fun _ h => by cases h), rfl⟩
    | some handle =>
      rw [hv] at hr
      obtain ⟨hEnd, rfl⟩ := h child _ r hr
      rw [resolve_eq_ok_iff.2 hv, ok_bind, ended_map]
      refine ⟨hEnd, ?_⟩
      cases below child <;> rfl
  | _ =>
    refine Follows.foldlM (Follows.of_eq (fun target => ?_) fun g target => ?_) g targets r hr
    · exact ended_map.2 (ended_resolve _ _ _ _ target)
    · exact run_link _ g target

theorem reaches_entryPhase
    (h : ∀ child g, Ended (below child) →
      phase child g = some ((below child).map (List.foldl Change.apply g))) :
    Reaches (entryPhase a vertexOf phase i vertex) (entryChanges a vertexOf below i vertex) := by
  rintro g ⟨relation, targets⟩ hEnd
  cases relation with
  | type => exact run_entryPhase_type below g targets
  | structural =>
    refine Reaches.foldlM (fun g child hchild => ?_) g targets hEnd
    cases hv : vertexOf (a.identity child) with
    | none =>
      rw [resolve_eq_error hv]
      rfl
    | some handle =>
      rw [resolve_eq_ok_iff.2 hv, ok_bind, ended_map] at hchild
      rw [resolve_eq_ok_iff.2 hv]
      refine (h child _ hchild).trans ?_
      cases below child <;> rfl
  | _ => exact Reaches.foldlM (fun g target _ => run_link _ g target) g targets hEnd

end entry

/-! ## The whole walk -/

/-- A recursion that ends makes the changes of the depth above the number of nodes. -/
theorem ended_of_edgePhase {i : Fin n} {g : PropertyGraph}
    {r : Except ConversionError PropertyGraph} (h : a.edgePhase vertexOf i g = some r) :
    Ended (changesWithin a vertexOf (n + 1) i) ∧
      (changesWithin a vertexOf (n + 1) i).map (List.foldl Change.apply g) = r := by
  refine Ast.edgePhase.partial_correctness a vertexOf
    (fun i g r => Ended (changesWithin a vertexOf (n + 1) i) ∧
      (changesWithin a vertexOf (n + 1) i).map (List.foldl Change.apply g) = r)
    (fun phase hphase i g r hr => ?_) i g r h
  -- One level more than enough gives nothing new.
  suffices hnext : Ended (changesWithin a vertexOf (n + 2) i) ∧
      (changesWithin a vertexOf (n + 2) i).map (List.foldl Change.apply g) = r by
    rwa [changesWithin_of_ended hnext.1]
  rw [changesWithin]
  have hEnd := ended_resolve a vertexOf .structural (a.kind i) i
  cases hv : vertexOf (a.identity i) with
  | none =>
    rw [hv] at hr
    rw [resolve_eq_error hv] at hEnd ⊢
    cases hr
    exact ⟨hEnd.bind (fun _ h => by cases h), rfl⟩
  | some vertex =>
    rw [hv] at hr
    rw [resolve_eq_ok_iff.2 hv]
    exact (follows_entryPhase hphase).foldlM g (a.links i) r hr

theorem edgePhase_of_ended {depth : Nat} {i : Fin n} {g : PropertyGraph}
    (h : Ended (changesWithin a vertexOf depth i)) :
    a.edgePhase vertexOf i g =
      some ((changesWithin a vertexOf depth i).map (List.foldl Change.apply g)) := by
  induction depth generalizing i g with
  | zero => exact absurd rfl (h (a.kind i))
  | succ depth ih =>
    rw [changesWithin] at h
    rw [edgePhase_eq, changesWithin]
    cases hv : vertexOf (a.identity i) with
    | none => rw [resolve_eq_error hv]; rfl
    | some vertex =>
      rw [resolve_eq_ok_iff.2 hv] at h ⊢
      exact (reaches_entryPhase fun _ _ => ih).foldlM g (a.links i) h

/-- **The walk with frames is the recursion.** Whenever the recursion from a root ends, with a graph
or an error, the walk gives the same, whatever the cache and the graph it starts from. The edges
that it adds come behind those that are there and stand for links below the root in the order of the
recursion: for all of them but the types, if the cache only leads to vertices that are there. -/
theorem start_eq_iff_edgePhase (a : Ast n) (vertexOf : NodeId → Option Nat) (g : PropertyGraph)
    (root : Fin n) :
    (∀ r, a.edgePhase vertexOf root g = some r ↔ start a vertexOf g root = r ∧ Ended r) ∧
    ∀ g', start a vertexOf g root = .ok g' →
      ∃ added links, g'.arcs.toList = g.arcs.toList ++ added ∧
        List.Forall₂ (fun l x => x.StandsFor a vertexOf g.idAt? l) links added ∧
        links.Sublist (a.linkOrder (n + 1) root) ∧
        ((∀ id handle, vertexOf id = some handle → handle < g.vertices.size) →
          links = (a.linkOrder (n + 1) root).filter (·.relation ≠ .type)) := by
  refine ⟨fun r => ⟨fun h => ?_, ?_⟩, fun g' => exists_links_of_start⟩
  · obtain ⟨hEnd, rfl⟩ := ended_of_edgePhase h
    exact ⟨start_eq a vertexOf g root, ended_map.2 hEnd⟩
  · rintro ⟨rfl, hEnd⟩
    rw [start_eq] at hEnd ⊢
    exact edgePhase_of_ended (ended_map.1 hEnd)

end EdgeWalk

end CodeGraph

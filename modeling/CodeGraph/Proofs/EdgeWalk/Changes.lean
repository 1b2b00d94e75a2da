import CodeGraph.Conversion.EdgeWalk
import CodeGraph.Proofs.Attempt

/-!
# The changes that an edge walk makes

What an edge walk does to a graph does not depend on the graph. `changesWithin` lists the changes,
or gives the error, by recursion over the links of a node instead of frames; its first argument
bounds the depth. `run_frame` is the link between the two: a walk with some frames makes the changes
of the innermost one and goes on with the others. So `start` is the recursion to a depth above the
number of nodes (`start_eq`).
-/

namespace CodeGraph.EdgeWalk

open Attempt

variable {n : Nat}

/-- A change to the graph: a new edge, or the joined type names of a vertex. -/
inductive Change
  | edge (relation : Relation) (source target : Nat)
  | reference (vertex : Nat) (names : String)
  deriving DecidableEq

/-- Makes one change. -/
def Change.apply (g : PropertyGraph) : Change → PropertyGraph
  | edge relation source target => link g relation source target
  | reference vertex names => g.setVertexProperty vertex PropertyName.reference (.text names)

/-! ## The recursion -/

/-- The changes for one link entry of a node with a vertex. What happens at a child is told by
`below`. -/
def entryChanges (a : Ast n) (vertexOf : NodeId → Option Nat)
    (below : Fin n → Except ConversionError (List Change)) (i : Fin n) (vertex : Nat) :
    Relation × List (Fin n) → Except ConversionError (List Change)
  | (.structural, children) =>
    gather (fun child => (resolve a vertexOf .structural (a.kind i) child).bind fun handle =>
      (below child).map fun changes => .edge .structural vertex handle :: changes) children
  | (.type, targets) =>
    (targets.mapM (typeName a (a.kind i))).map fun names =>
      [.reference vertex (",".intercalate names)]
  | (relation, targets) =>
    gather (fun target => (resolve a vertexOf relation (a.kind i) target).map fun handle =>
      [.edge relation vertex handle]) targets

theorem entryChanges_semantic {relation : Relation} (hs : relation ≠ .structural)
    (ht : relation ≠ .type) (a : Ast n) (vertexOf : NodeId → Option Nat)
    (below : Fin n → Except ConversionError (List Change)) (i : Fin n) (vertex : Nat)
    (targets : List (Fin n)) :
    entryChanges a vertexOf below i vertex (relation, targets) =
      gather (fun target => (resolve a vertexOf relation (a.kind i) target).map fun handle =>
        [.edge relation vertex handle]) targets := by
  cases relation <;> first | rfl | contradiction

/-- The changes for a node and all that lies below it in less than `depth` levels. -/
def changesWithin (a : Ast n) (vertexOf : NodeId → Option Nat) :
    Nat → Fin n → Except ConversionError (List Change)
  | 0, i => .error (.endless (a.kind i))
  | depth + 1, i =>
    (resolve a vertexOf .structural (a.kind i) i).bind fun vertex =>
      gather (entryChanges a vertexOf (changesWithin a vertexOf depth) i vertex) (a.links i)

theorem resolve_eq_ok_iff {a : Ast n} {vertexOf : NodeId → Option Nat} {relation : Relation}
    {source : String} {i : Fin n} {handle : Nat} :
    resolve a vertexOf relation source i = .ok handle ↔
      vertexOf (a.identity i) = some handle := by
  unfold resolve
  cases vertexOf (a.identity i) <;> simp

/-! ## Frames and recursion -/

theorem run_of_step {a : Ast n} {vertexOf : NodeId → Option Nat} {w w' : EdgeWalk n}
    (h : step a vertexOf w = .ok (.next w')) : run a vertexOf w = run a vertexOf w' := by
  rw [run]
  split
  · next e he => rw [h] at he; cases he
  · next g hg => rw [h] at hg; cases hg
  · next w'' hw => rw [h] at hw; cases hw; rfl

theorem run_of_step_error {a : Ast n} {vertexOf : NodeId → Option Nat} {w : EdgeWalk n}
    {e : ConversionError} (h : step a vertexOf w = .error e) : run a vertexOf w = .error e := by
  rw [run]
  split
  · next e' he => rw [h] at he; cases he; rfl
  · next g hg => rw [h] at hg; cases hg
  · next w'' hw => rw [h] at hw; cases hw

theorem run_nil (a : Ast n) (vertexOf : NodeId → Option Nat) (g : PropertyGraph) :
    run a vertexOf ⟨g, []⟩ = .ok g := by
  rw [run]
  rfl

section frames

variable (a : Ast n) (vertexOf : NodeId → Option Nat)

/-- What a walk does that has made some changes, if they did not fail, before its next frames. -/
def resume (g : PropertyGraph) (frames : List (EdgeFrame n)) (changes : List Change) :
    Except ConversionError PropertyGraph :=
  run a vertexOf ⟨changes.foldl Change.apply g, frames⟩

theorem run_done (g : PropertyGraph) (i : Fin n) (vertex room : Nat)
    (frames : List (EdgeFrame n)) :
    run a vertexOf ⟨g, ⟨i, vertex, [], room⟩ :: frames⟩ = run a vertexOf ⟨g, frames⟩ :=
  run_of_step rfl

theorem resume_append (g : PropertyGraph) (frames : List (EdgeFrame n)) (us vs : List Change) :
    resume a vertexOf g frames (us ++ vs) =
      resume a vertexOf (us.foldl Change.apply g) frames vs := by
  rw [resume, resume, List.foldl_append]

theorem foldl_edge (g : PropertyGraph) (relation : Relation) (vertex : Nat) (handles : List Nat) :
    (handles.map (Change.edge relation vertex)).foldl Change.apply g =
      handles.foldl (fun g handle => link g relation vertex handle) g := by
  rw [List.foldl_map]
  rfl

theorem step_leaf {relation : Relation} (hs : relation ≠ .structural) (g : PropertyGraph)
    (i : Fin n) (vertex room : Nat) (targets : List (Fin n))
    (rest : List (Relation × List (Fin n))) (frames : List (EdgeFrame n))
    (below : Fin n → Except ConversionError (List Change)) :
    step a vertexOf ⟨g, ⟨i, vertex, (relation, targets) :: rest, room⟩ :: frames⟩ =
      (entryChanges a vertexOf below i vertex (relation, targets)).map fun changes =>
        .next ⟨changes.foldl Change.apply g, ⟨i, vertex, rest, room⟩ :: frames⟩ := by
  by_cases ht : relation = .type
  · subst ht
    rw [entryChanges]
    cases h : targets.mapM (typeName a (a.kind i)) <;> simp [step, h, bind_eq, Change.apply]
  · have hentry : entryChanges a vertexOf below i vertex (relation, targets) =
        (targets.mapM (resolve a vertexOf relation (a.kind i))).map
          (List.map (Change.edge relation vertex)) := by
      rw [entryChanges_semantic hs ht, gather_singleton]
    have hstep : step a vertexOf ⟨g, ⟨i, vertex, (relation, targets) :: rest, room⟩ :: frames⟩ =
        (targets.mapM (resolve a vertexOf relation (a.kind i))).bind fun handles =>
          .ok (.next ⟨handles.foldl (fun g handle => link g relation vertex handle) g,
            ⟨i, vertex, rest, room⟩ :: frames⟩) := by
      cases relation <;> first | rfl | contradiction
    rw [hstep, hentry]
    cases targets.mapM (resolve a vertexOf relation (a.kind i)) with
    | error e => rfl
    | ok handles => simp only [ok_bind, ok_map, foldl_edge]

theorem step_child {child : Fin n} {handle : Nat} (h : vertexOf (a.identity child) = some handle)
    (g : PropertyGraph) (i : Fin n) (vertex room : Nat) (others : List (Fin n))
    (rest : List (Relation × List (Fin n))) (frames : List (EdgeFrame n)) :
    step a vertexOf ⟨g, ⟨i, vertex, (.structural, child :: others) :: rest, room + 1⟩ :: frames⟩ =
      .ok (.next ⟨link g .structural vertex handle,
        ⟨child, handle, a.links child, room⟩ ::
          ⟨i, vertex, (.structural, others) :: rest, room + 1⟩ :: frames⟩) := by
  have hres : resolve a vertexOf .structural (a.kind i) child = .ok handle :=
    resolve_eq_ok_iff.2 h
  simp [step, hres, bind_eq]

theorem run_leaf {relation : Relation} (hs : relation ≠ .structural) (g : PropertyGraph)
    (i : Fin n) (vertex room : Nat) (targets : List (Fin n))
    (rest : List (Relation × List (Fin n))) (frames : List (EdgeFrame n))
    (below : Fin n → Except ConversionError (List Change)) :
    run a vertexOf ⟨g, ⟨i, vertex, (relation, targets) :: rest, room⟩ :: frames⟩ =
      (entryChanges a vertexOf below i vertex (relation, targets)).bind
        (resume a vertexOf g (⟨i, vertex, rest, room⟩ :: frames)) := by
  have hstep := step_leaf a vertexOf hs g i vertex room targets rest frames below
  cases h : entryChanges a vertexOf below i vertex (relation, targets) with
  | error e =>
    rw [h] at hstep
    exact run_of_step_error hstep
  | ok changes =>
    rw [h] at hstep
    exact run_of_step hstep

theorem run_structural {room : Nat}
    (hchild : ∀ (g : PropertyGraph) (child : Fin n) (handle : Nat) (frames : List (EdgeFrame n)),
      vertexOf (a.identity child) = some handle → ∀ r, room = r + 1 →
      run a vertexOf ⟨g, ⟨child, handle, a.links child, r⟩ :: frames⟩ =
        (changesWithin a vertexOf room child).bind (resume a vertexOf g frames))
    (i : Fin n) (vertex : Nat) (rest : List (Relation × List (Fin n)))
    (frames : List (EdgeFrame n)) (children : List (Fin n)) (g : PropertyGraph) :
    run a vertexOf ⟨g, ⟨i, vertex, (.structural, children) :: rest, room⟩ :: frames⟩ =
      (entryChanges a vertexOf (changesWithin a vertexOf room) i vertex
        (.structural, children)).bind
        (resume a vertexOf g (⟨i, vertex, rest, room⟩ :: frames)) := by
  induction children generalizing g with
  | nil => exact run_of_step rfl
  | cons child others ih =>
    rw [entryChanges, gather]
    rw [entryChanges] at ih
    cases hres : resolve a vertexOf .structural (a.kind i) child with
    | error e => exact run_of_step_error (by simp [step, hres, bind_eq])
    | ok handle =>
      have hvertex := resolve_eq_ok_iff.1 hres
      simp only [ok_bind]
      cases room with
      | zero =>
        refine run_of_step_error ?_
        simp [step, hres, bind_eq]
      | succ r =>
        -- The frame of the child is finished first; the rest of the entry is left to `ih`.
        rw [run_of_step (step_child a vertexOf hvertex g i vertex r others rest frames),
          hchild _ child handle _ hvertex r rfl]
        cases changesWithin a vertexOf (r + 1) child with
        | error e => rfl
        | ok changes =>
          simp only [ok_bind, ok_map]
          rw [resume, ih]
          cases gather _ others with
          | error e => rfl
          | ok later =>
            simp only [ok_bind, ok_map, List.cons_append]
            rw [← List.cons_append, resume_append]
            rfl

/-- A walk makes the changes of its innermost frame and goes on with the others. -/
theorem run_frame (room : Nat) (g : PropertyGraph) (i : Fin n) (vertex : Nat)
    (todo : List (Relation × List (Fin n))) (frames : List (EdgeFrame n)) :
    run a vertexOf ⟨g, ⟨i, vertex, todo, room⟩ :: frames⟩ =
      (gather (entryChanges a vertexOf (changesWithin a vertexOf room) i vertex) todo).bind
        (resume a vertexOf g frames) := by
  -- The outer induction is for the frames that open below, the inner one for the entries.
  induction room using Nat.strongRecOn generalizing g i vertex todo frames with
  | _ room ih =>
    have hchild : ∀ (g : PropertyGraph) (child : Fin n) (handle : Nat)
        (frames : List (EdgeFrame n)), vertexOf (a.identity child) = some handle →
        ∀ r, room = r + 1 →
        run a vertexOf ⟨g, ⟨child, handle, a.links child, r⟩ :: frames⟩ =
          (changesWithin a vertexOf room child).bind (resume a vertexOf g frames) := by
      rintro g child handle frames hvertex r rfl
      rw [ih r (Nat.lt_succ_self r), changesWithin, resolve_eq_ok_iff.2 hvertex, ok_bind]
    induction todo generalizing g with
    | nil => exact run_done a vertexOf g i vertex room frames
    | cons entry rest ihRest =>
      have hentry : run a vertexOf ⟨g, ⟨i, vertex, entry :: rest, room⟩ :: frames⟩ =
          (entryChanges a vertexOf (changesWithin a vertexOf room) i vertex entry).bind
            (resume a vertexOf g (⟨i, vertex, rest, room⟩ :: frames)) := by
        obtain ⟨relation, targets⟩ := entry
        by_cases hs : relation = .structural
        · subst hs
          exact run_structural a vertexOf hchild i vertex rest frames targets g
        · exact run_leaf a vertexOf hs g i vertex room targets rest frames _
      rw [hentry, gather]
      cases entryChanges a vertexOf (changesWithin a vertexOf room) i vertex entry with
      | error e => rfl
      | ok changes =>
        simp only [ok_bind]
        rw [resume, ihRest]
        cases gather _ rest with
        | error e => rfl
        | ok later => simp only [ok_bind, ok_map, resume_append]

/-- The walk from a root is the recursion, to a depth above the number of nodes. -/
theorem start_eq (g : PropertyGraph) (root : Fin n) :
    start a vertexOf g root =
      (changesWithin a vertexOf (n + 1) root).map fun changes => changes.foldl Change.apply g := by
  rw [start, bind_eq, changesWithin]
  cases resolve a vertexOf .structural (a.kind root) root with
  | error e => rfl
  | ok handle =>
    simp only [ok_bind]
    rw [run_frame]
    cases gather _ (a.links root) with
    | error e => rfl
    | ok changes => exact run_nil a vertexOf _

end frames

end CodeGraph.EdgeWalk

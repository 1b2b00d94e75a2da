import CodeGraph.Proofs.Ast.Links
import CodeGraph.Proofs.EdgeWalk.Changes

/-!
# The frames of an edge walk

`framesFrom` lists the nodes for which a walk opens frames, in order. It observes `step` and does
not touch it: a frame was opened if there is one more than before. A walk that ends opens a frame
for its root and for each structural target that it comes to, so the nodes are those of `Ast.visits`
(`framesFrom_of_start`).
-/

namespace CodeGraph.EdgeWalk

open Attempt

variable {n : Nat}

/-- The node of the frame that a step has opened, if it has. -/
def opened? (w w' : EdgeWalk n) : Option (Fin n) :=
  if w.frames.length < w'.frames.length then w'.frames.head?.map (·.node) else none

/-- The nodes of the frames that open from here on, in order. -/
def opened (a : Ast n) (vertexOf : NodeId → Option Nat) (w : EdgeWalk n) : List (Fin n) :=
  match _h : step a vertexOf w with
  | .error _ => []
  | .ok (.finished _) => []
  | .ok (.next w') => (opened? w w').toList ++ opened a vertexOf w'
termination_by weight a w.frames
decreasing_by exact weight_lt_of_step ‹_›

/-- The nodes of all frames of a walk from `root`. -/
def framesFrom (a : Ast n) (vertexOf : NodeId → Option Nat) (g : PropertyGraph) (root : Fin n) :
    List (Fin n) :=
  match resolve a vertexOf .structural (a.kind root) root with
  | .error _ => []
  | .ok handle => root :: opened a vertexOf ⟨g, [⟨root, handle, a.links root, n⟩]⟩

section frames

variable (a : Ast n) (vertexOf : NodeId → Option Nat)

theorem opened_of_step {w w' : EdgeWalk n} (h : step a vertexOf w = .ok (.next w')) :
    opened a vertexOf w = (opened? w w').toList ++ opened a vertexOf w' := by
  rw [opened]
  split
  · next e he => rw [h] at he; cases he
  · next g hg => rw [h] at hg; cases hg
  · next w'' hw => rw [h] at hw; cases hw; rfl

theorem opened_nil (g : PropertyGraph) : opened a vertexOf ⟨g, []⟩ = [] := by
  rw [opened]
  rfl

theorem opened_done (g : PropertyGraph) (i : Fin n) (vertex room : Nat)
    (frames : List (EdgeFrame n)) :
    opened a vertexOf ⟨g, ⟨i, vertex, [], room⟩ :: frames⟩ = opened a vertexOf ⟨g, frames⟩ := by
  have hstep : step a vertexOf ⟨g, ⟨i, vertex, [], room⟩ :: frames⟩ = .ok (.next ⟨g, frames⟩) := rfl
  rw [opened_of_step a vertexOf hstep, opened?, if_neg (by simp)]
  rfl

/-- The nodes that open frames from an innermost frame on, which makes some changes: those of the
entries that are left at it, and then those of the other frames. -/
def OpensBelow (room : Nat) (g : PropertyGraph) (i : Fin n) (vertex : Nat)
    (todo : List (Relation × List (Fin n))) (frames : List (EdgeFrame n))
    (changes : List Change) : Prop :=
  opened a vertexOf ⟨g, ⟨i, vertex, todo, room⟩ :: frames⟩ =
    (Ast.structuralTargets todo).flatMap (a.visits room) ++
      opened a vertexOf ⟨changes.foldl Change.apply g, frames⟩

theorem opened_leaf {relation : Relation} (hs : relation ≠ .structural) (g : PropertyGraph)
    (i : Fin n) (vertex room : Nat) (targets : List (Fin n))
    (rest : List (Relation × List (Fin n))) (frames : List (EdgeFrame n))
    {below : Fin n → Except ConversionError (List Change)} {changes : List Change}
    (h : entryChanges a vertexOf below i vertex (relation, targets) = .ok changes) :
    opened a vertexOf ⟨g, ⟨i, vertex, (relation, targets) :: rest, room⟩ :: frames⟩ =
      opened a vertexOf ⟨changes.foldl Change.apply g, ⟨i, vertex, rest, room⟩ :: frames⟩ := by
  have hstep := step_leaf a vertexOf hs g i vertex room targets rest frames below
  rw [h, ok_map] at hstep
  rw [opened_of_step a vertexOf hstep, opened?, if_neg (by simp)]
  rfl

theorem opened_structural {room : Nat}
    (hchild : ∀ (g : PropertyGraph) (child : Fin n) (handle : Nat) (frames : List (EdgeFrame n))
      (changes : List Change), vertexOf (a.identity child) = some handle → ∀ r, room = r + 1 →
      changesWithin a vertexOf room child = .ok changes →
      OpensBelow a vertexOf r g child handle (a.links child) frames changes)
    (i : Fin n) (vertex : Nat) (rest : List (Relation × List (Fin n)))
    (frames : List (EdgeFrame n)) {children : List (Fin n)} (g : PropertyGraph)
    {changes : List Change}
    (h : entryChanges a vertexOf (changesWithin a vertexOf room) i vertex
      (.structural, children) = .ok changes) :
    opened a vertexOf ⟨g, ⟨i, vertex, (.structural, children) :: rest, room⟩ :: frames⟩ =
      children.flatMap (a.visits room) ++
        opened a vertexOf ⟨changes.foldl Change.apply g, ⟨i, vertex, rest, room⟩ :: frames⟩ := by
  rw [entryChanges] at h
  induction children generalizing g changes with
  | nil =>
    cases h
    have hstep : step a vertexOf ⟨g, ⟨i, vertex, (.structural, []) :: rest, room⟩ :: frames⟩ =
      .ok (.next ⟨g, ⟨i, vertex, rest, room⟩ :: frames⟩) := rfl
    rw [opened_of_step a vertexOf hstep, opened?, if_neg (by simp)]
    rfl
  | cons child others ih =>
    obtain ⟨ys, hys, h⟩ := bind_eq_ok_iff.1 h
    obtain ⟨later, hlater, rfl⟩ := map_eq_ok_iff.1 h
    obtain ⟨handle, hres, hys⟩ := bind_eq_ok_iff.1 hys
    obtain ⟨deeper, hdeeper, rfl⟩ := map_eq_ok_iff.1 hys
    have hvertex := resolve_eq_ok_iff.1 hres
    cases room with
    | zero => cases hdeeper
    | succ r =>
      -- The frame of the child comes on top, and what it opens comes before the other children.
      have hbelow := hchild (link g .structural vertex handle) child handle
        (⟨i, vertex, (.structural, others) :: rest, r + 1⟩ :: frames) deeper hvertex r rfl hdeeper
      rw [opened_of_step a vertexOf (step_child a vertexOf hvertex g i vertex r others rest frames),
        opened?, if_pos (by simp), hbelow, ih _ hlater, List.flatMap_cons, Ast.visits,
        List.append_assoc, List.foldl_append]
      rfl

/-- A walk opens the frames below its innermost frame, and goes on with the others. -/
theorem opensBelow (room : Nat) (g : PropertyGraph) (i : Fin n) (vertex : Nat)
    (todo : List (Relation × List (Fin n))) (frames : List (EdgeFrame n)) {changes : List Change}
    (h : gather (entryChanges a vertexOf (changesWithin a vertexOf room) i vertex) todo =
      .ok changes) :
    OpensBelow a vertexOf room g i vertex todo frames changes := by
  -- The outer induction is for the frames that open below, the inner one for the entries.
  induction room using Nat.strongRecOn generalizing g i vertex todo frames changes with
  | _ room ih =>
    have hchild : ∀ (g : PropertyGraph) (child : Fin n) (handle : Nat)
        (frames : List (EdgeFrame n)) (changes : List Change),
        vertexOf (a.identity child) = some handle → ∀ r, room = r + 1 →
        changesWithin a vertexOf room child = .ok changes →
        OpensBelow a vertexOf r g child handle (a.links child) frames changes := by
      rintro g child handle frames changes hvertex r rfl hchanges
      rw [changesWithin, resolve_eq_ok_iff.2 hvertex, ok_bind] at hchanges
      exact ih r (Nat.lt_succ_self r) g child handle _ frames hchanges
    induction todo generalizing g changes with
    | nil =>
      cases h
      exact opened_done a vertexOf g i vertex room frames
    | cons entry rest ihRest =>
      obtain ⟨ys, hys, h⟩ := bind_eq_ok_iff.1 h
      obtain ⟨later, hlater, rfl⟩ := map_eq_ok_iff.1 h
      obtain ⟨relation, targets⟩ := entry
      have hrest := ihRest (ys.foldl Change.apply g) hlater
      rw [OpensBelow] at hrest ⊢
      rw [Ast.structuralTargets_cons, List.flatMap_append, List.foldl_append, List.append_assoc,
        ← hrest]
      by_cases hs : relation = .structural
      · subst hs
        rw [if_pos rfl]
        exact opened_structural a vertexOf hchild i vertex rest frames g hys
      · rw [if_neg hs]
        exact opened_leaf a vertexOf hs g i vertex room targets rest frames hys

theorem framesFrom_of_start {g g' : PropertyGraph} {root : Fin n}
    (h : start a vertexOf g root = .ok g') :
    framesFrom a vertexOf g root = a.visits (n + 1) root := by
  rw [start_eq] at h
  obtain ⟨changes, hchanges, -⟩ := map_eq_ok_iff.1 h
  obtain ⟨handle, hres, hchanges⟩ := bind_eq_ok_iff.1 hchanges
  have hbelow := opensBelow a vertexOf n g root handle (a.links root) [] hchanges
  rw [OpensBelow, opened_nil, List.append_nil] at hbelow
  rw [framesFrom, hres, Ast.visits]
  simp only [hbelow]

end frames

end CodeGraph.EdgeWalk

import CodeGraph.Conversion.Error
import CodeGraph.Graph.Basic
import CodeGraph.Ast.Basic

/-!
# The edge walk

Once the nodes of a tree have vertices, the walk turns their links into edges. It keeps one frame
for each node on the path from the root, with the entries that are still to do. A structural entry
gives one edge and one new frame at a time, so that a child's subtree is done before the edge to
the next child. A type entry writes the joined names into the vertex of its node, and the other
entries give their edges all at once.

The path of a walk that ends never holds a node twice, so it is no longer than there are nodes.
`room` counts down along the path; a walk that runs out of it would have no end.
-/

namespace CodeGraph

variable {n : Nat}

/-- What is left to do at one node. -/
structure EdgeFrame (n : Nat) where
  node : Fin n
  /-- The handle of the node's vertex. -/
  vertex : Nat
  todo : List (Relation × List (Fin n))
  /-- How many frames may still open below. -/
  room : Nat

/-- A walk on its way: the graph so far, and the frames from the innermost to the root. -/
structure EdgeWalk (n : Nat) where
  graph : PropertyGraph
  frames : List (EdgeFrame n)

namespace EdgeWalk

/-- What one step leads to. -/
inductive Step (n : Nat)
  | finished (graph : PropertyGraph)
  | next (walk : EdgeWalk n)

/-- The vertex of a target, which must have one. -/
def resolve (a : Ast n) (vertexOf : NodeId → Option Nat) (relation : Relation) (source : String)
    (target : Fin n) : Except ConversionError Nat :=
  match vertexOf (a.identity target) with
  | some handle => .ok handle
  | none => .error (.unresolved relation source (.missingTarget (a.kind target)))

/-- The name that a type target spells, which must be a simple name. -/
def typeName (a : Ast n) (source : String) (target : Fin n) : Except ConversionError String :=
  match a.name? target with
  | some name => .ok name
  | none => .error (.unresolved .type source (.unexpectedKind (a.kind target)))

/-- Adds the edge of one link: its label is the relation's, and so is its only property. -/
def link (g : PropertyGraph) (relation : Relation) (source target : Nat) : PropertyGraph :=
  g.addEdge source target relation.label (Record.ofList [(PropertyName.type, .text relation.label)])

/-- Handles the first entry of the innermost frame, or one target of it if it is structural. -/
def step (a : Ast n) (vertexOf : NodeId → Option Nat) :
    EdgeWalk n → Except ConversionError (Step n)
  | ⟨g, []⟩ => .ok (.finished g)
  | ⟨g, f :: frames⟩ =>
    match f.todo with
    | [] => .ok (.next ⟨g, frames⟩)
    | (.structural, []) :: rest => .ok (.next ⟨g, { f with todo := rest } :: frames⟩)
    | (.structural, child :: others) :: rest => do
      let handle ← resolve a vertexOf .structural (a.kind f.node) child
      match f.room with
      | 0 => .error (.endless (a.kind child))
      | room + 1 =>
        .ok (.next ⟨link g .structural f.vertex handle,
          ⟨child, handle, a.links child, room⟩ ::
            { f with todo := (.structural, others) :: rest } :: frames⟩)
    | (.type, targets) :: rest => do
      let names ← targets.mapM (typeName a (a.kind f.node))
      let reference := Value.text (",".intercalate names)
      .ok (.next ⟨g.setVertexProperty f.vertex PropertyName.reference reference,
        { f with todo := rest } :: frames⟩)
    | (relation, targets) :: rest => do
      let handles ← targets.mapM (resolve a vertexOf relation (a.kind f.node))
      .ok (.next ⟨handles.foldl (fun g handle => link g relation f.vertex handle) g,
        { f with todo := rest } :: frames⟩)

/-! ## The walk ends -/

/-- How many steps the entries take, without those below the children. -/
def effort : List (Relation × List (Fin n)) → Nat
  | [] => 0
  | e :: rest => e.2.length + 1 + effort rest

/-- The efforts of all the nodes together. -/
def totalEffort (a : Ast n) : List (Fin n) → Nat
  | [] => 0
  | i :: rest => effort (a.links i) + totalEffort a rest

theorem effort_le_totalEffort (a : Ast n) {i : Fin n} {nodes : List (Fin n)} (h : i ∈ nodes) :
    effort (a.links i) ≤ totalEffort a nodes := by
  induction nodes with
  | nil => simp at h
  | cons j rest ih =>
    rw [totalEffort]
    rcases List.mem_cons.1 h with rfl | h
    · omega
    · have := ih h
      omega

/-- The weight of one step of a frame with some room. -/
def stepWeight (a : Ast n) : Nat → Nat
  | 0 => 1
  | room + 1 => stepWeight a room * (totalEffort a (List.finRange n) + 2)

theorem stepWeight_pos (a : Ast n) (room : Nat) : 0 < stepWeight a room := by
  induction room with
  | zero => exact Nat.one_pos
  | succ room ih => exact Nat.mul_pos ih (Nat.succ_pos _)

/-- A frame outweighs all the frames that may open below it. -/
def weight (a : Ast n) : List (EdgeFrame n) → Nat
  | [] => 0
  | f :: frames => (effort f.todo + 1) * stepWeight a f.room + weight a frames

/-- A frame with less to do weighs less. -/
theorem weight_todo_lt (a : Ast n) (f : EdgeFrame n) (frames : List (EdgeFrame n))
    {todo : List (Relation × List (Fin n))} (h : effort todo < effort f.todo) :
    weight a ({ f with todo := todo } :: frames) < weight a (f :: frames) := by
  rw [weight, weight]
  exact Nat.add_lt_add_right (Nat.mul_lt_mul_of_pos_right (by simpa using h) (stepWeight_pos a _)) _

/-- A new frame below weighs less than the target that opened it. -/
theorem weight_open_lt (a : Ast n) (f : EdgeFrame n) (frames : List (EdgeFrame n))
    {todo : List (Relation × List (Fin n))} {room : Nat} (hroom : f.room = room + 1)
    (h : effort f.todo = effort todo + 1) (child : Fin n) (handle : Nat) :
    weight a (⟨child, handle, a.links child, room⟩ :: { f with todo := todo } :: frames) <
      weight a (f :: frames) := by
  simp only [weight, hroom, h]
  have hchild : (effort (a.links child) + 1) * stepWeight a room < stepWeight a (room + 1) := by
    rw [stepWeight, Nat.mul_comm (stepWeight a room)]
    refine Nat.mul_lt_mul_of_pos_right ?_ (stepWeight_pos a room)
    have := effort_le_totalEffort a (List.mem_finRange child)
    omega
  have hsplit : (effort todo + 1 + 1) * stepWeight a (room + 1) =
      (effort todo + 1) * stepWeight a (room + 1) + stepWeight a (room + 1) := by
    rw [Nat.add_mul _ 1, Nat.one_mul]
  omega

theorem weight_lt_of_step {a : Ast n} {vertexOf : NodeId → Option Nat} {w w' : EdgeWalk n}
    (h : step a vertexOf w = .ok (.next w')) : weight a w'.frames < weight a w.frames := by
  obtain ⟨g, frames⟩ := w
  cases frames with
  | nil => simp [step] at h
  | cons f frames =>
    simp only [step] at h
    split at h
    · next hTodo =>
      simp only [Except.ok.injEq, Step.next.injEq] at h
      subst h
      rw [weight, hTodo]
      have := stepWeight_pos a f.room
      simp [effort, this]
    · next rest hTodo =>
      simp only [Except.ok.injEq, Step.next.injEq] at h
      subst h
      exact weight_todo_lt a f frames (by rw [hTodo, effort]; omega)
    · next child others rest hTodo =>
      simp only [bind, Except.bind] at h
      split at h
      · simp at h
      · split at h
        · simp at h
        · next room hRoom =>
          simp only [Except.ok.injEq, Step.next.injEq] at h
          subst h
          refine weight_open_lt a f frames hRoom ?_ child _
          rw [hTodo, effort, effort]
          simp only [List.length_cons]
          omega
    · next targets rest hTodo =>
      simp only [bind, Except.bind] at h
      split at h
      · simp at h
      · simp only [Except.ok.injEq, Step.next.injEq] at h
        subst h
        exact weight_todo_lt a f frames (by rw [hTodo, effort]; omega)
    · next hTodo =>
      simp only [bind, Except.bind] at h
      split at h
      · simp at h
      · simp only [Except.ok.injEq, Step.next.injEq] at h
        subst h
        exact weight_todo_lt a f frames (by rw [hTodo, effort]; omega)

/-- Steps on until no frame is left. -/
def run (a : Ast n) (vertexOf : NodeId → Option Nat) (w : EdgeWalk n) :
    Except ConversionError PropertyGraph :=
  match _h : step a vertexOf w with
  | .error e => .error e
  | .ok (.finished g) => .ok g
  | .ok (.next w') => run a vertexOf w'
termination_by weight a w.frames
decreasing_by exact weight_lt_of_step ‹_›

/-- Walks from `root`, which must have a vertex itself. -/
def start (a : Ast n) (vertexOf : NodeId → Option Nat) (g : PropertyGraph) (root : Fin n) :
    Except ConversionError PropertyGraph := do
  let handle ← resolve a vertexOf .structural (a.kind root) root
  run a vertexOf ⟨g, [⟨root, handle, a.links root, n⟩]⟩

end EdgeWalk

end CodeGraph

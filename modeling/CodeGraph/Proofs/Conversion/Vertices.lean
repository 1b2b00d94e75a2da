import CodeGraph.Conversion.Basic
import CodeGraph.Proofs.Attempt
import CodeGraph.Proofs.Lists

/-!
# Giving vertices to the nodes of a tree

The first half of a conversion takes the nodes one after the other. It fails with the fault of the
first node that has one (`failure?_foldlM_addVertex`); a node is at fault if its identity is cached
or stands earlier in the list, or else if its extra attributes are. Otherwise each node has a new
vertex, and these are numbered on in the order of the nodes (`takesUp_of_foldlM`).
-/

namespace CodeGraph.Conversion

open Attempt CodeGraph.Lists

variable {n : Nat}

/-- Why the node at a place of a list gets no vertex. -/
def nodeFault? (c : Conversion) (a : Ast n) (source : AttributeSource n) (nodes : List (Fin n))
    (place : Nat) : Option ConversionError :=
  match nodes[place]? with
  | none => none
  | some i =>
    if c.handles.contains (a.identity i) ∨ a.identity i ∈ (nodes.take place).map a.identity then
      some (.duplicateNode (a.kind i) (a.identity i))
    else failure? (extraAttributes a source i)

/-- The extra attributes of a node whose source does not fail. -/
def extraOf (source : AttributeSource n) (i : Fin n) : Record String :=
  match source i with
  | .ok extra => extra
  | .error _ => ∅

variable {a : Ast n} {source : AttributeSource n}

theorem extraAttributes_eq_ok_iff {i : Fin n} {extra : Record String} :
    extraAttributes a source i = .ok extra ↔
      source i = .ok extra ∧ ∀ e ∈ extra.entries, e.1 ∉ PropertyName.reserved := by
  unfold extraAttributes
  cases source i with
  | error text => simp
  | ok found =>
    simp only
    split
    · next name value hfind =>
      have hmem := List.mem_of_find?_eq_some hfind
      have hreserved : name ∈ PropertyName.reserved := by simpa using List.find?_some hfind
      simp only [reduceCtorEq, Except.ok.injEq, false_iff, not_and]
      rintro rfl hnone
      exact hnone _ hmem hreserved
    · next hnone =>
      simp only [Except.ok.injEq, iff_self_and]
      rintro rfl e he
      simpa using List.find?_eq_none.1 hnone e he

/-! ## One node -/

/-- The conversion after a node got its vertex. -/
def withVertex (c : Conversion) (a : Ast n) (i : Fin n) (extra : Record String) : Conversion where
  graph := c.graph.addVertex ⟨c.nextId, properties a i extra⟩
  handles := c.handles.insert (a.identity i) c.graph.vertices.size
  nextId := c.nextId + 1

theorem addVertex_eq (c : Conversion) (i : Fin n) :
    addVertex a source c i =
      if c.handles.contains (a.identity i) then
        .error (.duplicateNode (a.kind i) (a.identity i))
      else (extraAttributes a source i).map (c.withVertex a i) := by
  rw [addVertex]
  cases extraAttributes a source i <;> rfl

theorem addVertex_eq_ok_iff {c c' : Conversion} {i : Fin n} :
    addVertex a source c i = .ok c' ↔
      ¬ c.handles.contains (a.identity i) = true ∧
        extraAttributes a source i = .ok (extraOf source i) ∧
        c' = c.withVertex a i (extraOf source i) := by
  rw [addVertex_eq]
  split
  · next h => simp [h]
  · next h =>
    rw [map_eq_ok_iff]
    simp only [h, Bool.false_eq_true, not_false_eq_true, true_and]
    constructor
    · rintro ⟨extra, hextra, rfl⟩
      have hsource : extraOf source i = extra := by
        rw [extraOf, (extraAttributes_eq_ok_iff.1 hextra).1]
      rw [hsource]
      exact ⟨hextra, rfl⟩
    · rintro ⟨hextra, rfl⟩
      exact ⟨_, hextra, rfl⟩

theorem failure?_addVertex (c : Conversion) (i : Fin n) (rest : List (Fin n)) :
    failure? (addVertex a source c i) = c.nodeFault? a source (i :: rest) 0 := by
  rw [addVertex_eq]
  simp only [nodeFault?, List.getElem?_cons_zero, List.take_zero, List.map_nil, List.not_mem_nil,
    or_false]
  split
  · rfl
  · exact failure?_map _ _

/-- What is wrong with a later node does not depend on how far the walk has come. -/
theorem nodeFault?_withVertex (c : Conversion) (i : Fin n) (extra : Record String)
    (rest : List (Fin n)) (place : Nat) :
    (c.withVertex a i extra).nodeFault? a source rest place =
      c.nodeFault? a source (i :: rest) (place + 1) := by
  simp only [nodeFault?, List.getElem?_cons_succ, List.take_succ_cons, List.map_cons]
  cases rest[place]? with
  | none => rfl
  | some j =>
    have hcached : (c.withVertex a i extra).handles.contains (a.identity j) = true ↔
        a.identity j = a.identity i ∨ c.handles.contains (a.identity j) = true := by
      rw [withVertex, Std.TreeMap.contains_insert, Bool.or_eq_true, beq_iff_eq,
        Std.LawfulEqCmp.compare_eq_iff_eq, eq_comm]
    simp only [hcached, List.mem_cons, or_left_comm, or_assoc]

/-! ## All nodes -/

theorem failure?_foldlM_addVertex (c : Conversion) (nodes : List (Fin n)) :
    failure? (nodes.foldlM (addVertex a source) c) =
      (List.range nodes.length).findSome? (c.nodeFault? a source nodes) := by
  induction nodes generalizing c with
  | nil => rfl
  | cons i rest ih =>
    rw [List.foldlM_cons, bind_eq, List.length_cons, List.range_succ_eq_map, List.findSome?_cons,
      ← failure?_addVertex, List.findSome?_map]
    cases h : addVertex a source c i with
    | error e => rfl
    | ok c' =>
      obtain ⟨-, -, rfl⟩ := addVertex_eq_ok_iff.1 h
      rw [ok_bind, ih]
      exact findSome?_congr fun place _ => nodeFault?_withVertex c i _ rest place

/-- What has changed when nodes were given vertices. -/
structure TakesUp (a : Ast n) (source : AttributeSource n) (nodes : List (Fin n))
    (c c' : Conversion) : Prop where
  vertices : c'.graph.vertices.toList = c.graph.vertices.toList ++
    (nodes.zipIdx c.nextId).map fun x => ⟨x.2, properties a x.1 (extraOf source x.1)⟩
  arcs : c'.graph.arcs = c.graph.arcs
  fresh : ∀ i ∈ nodes, c.handles[a.identity i]? = none
  cached : ∀ place i, nodes[place]? = some i →
    c'.handles[a.identity i]? = some (c.graph.vertices.size + place)
  others : ∀ id, (∀ i ∈ nodes, a.identity i ≠ id) → c'.handles[id]? = c.handles[id]?

theorem takesUp_nil (c : Conversion) : TakesUp a source [] c c where
  vertices := by simp
  arcs := rfl
  fresh := by simp
  cached := by simp
  others _ _ := rfl

theorem getElem?_withVertex (c : Conversion) (i : Fin n) (extra : Record String) (id : NodeId) :
    (c.withVertex a i extra).handles[id]? =
      if a.identity i = id then some c.graph.vertices.size else c.handles[id]? := by
  rw [withVertex, Std.TreeMap.getElem?_insert]
  simp only [Std.LawfulEqCmp.compare_eq_iff_eq]

theorem TakesUp.cons {c c' : Conversion} {i : Fin n} {rest : List (Fin n)}
    (hi : c.handles[a.identity i]? = none)
    (h : TakesUp a source rest (c.withVertex a i (extraOf source i)) c') :
    TakesUp a source (i :: rest) c c' := by
  have hother : ∀ j ∈ rest, a.identity i ≠ a.identity j := fun j hj heq => by
    have hnone := h.fresh j hj
    rw [getElem?_withVertex, if_pos heq] at hnone
    cases hnone
  refine ⟨?_, h.arcs, fun j hj => ?_, fun place j hj => ?_, fun id hid => ?_⟩
  · rw [h.vertices]
    simp [withVertex, PropertyGraph.addVertex, List.zipIdx_cons]
  · rcases List.mem_cons.1 hj with rfl | hj
    · exact hi
    · rw [← h.fresh j hj, getElem?_withVertex, if_neg (hother j hj)]
  · cases place with
    | zero =>
      obtain rfl : i = j := by simpa using hj
      rw [h.others _ fun j hj => (hother j hj).symm, getElem?_withVertex, if_pos rfl,
        Nat.add_zero]
    | succ place =>
      rw [h.cached place j (by simpa using hj)]
      simp [withVertex, PropertyGraph.addVertex, Nat.add_comm, Nat.add_left_comm]
  · rw [h.others id fun j hj => hid j (List.mem_cons_of_mem _ hj), getElem?_withVertex,
      if_neg (hid i List.mem_cons_self)]

theorem takesUp_of_foldlM {c c' : Conversion} {nodes : List (Fin n)}
    (h : nodes.foldlM (addVertex a source) c = .ok c') : TakesUp a source nodes c c' := by
  induction nodes generalizing c with
  | nil =>
    cases h
    exact takesUp_nil _
  | cons i rest ih =>
    rw [List.foldlM_cons, bind_eq, bind_eq_ok_iff] at h
    obtain ⟨c₁, hi, h⟩ := h
    obtain ⟨hfresh, -, rfl⟩ := addVertex_eq_ok_iff.1 hi
    exact .cons (Std.TreeMap.getElem?_eq_none (by simpa using hfresh)) (ih h)

theorem TakesUp.isSome_iff {c c' : Conversion} {nodes : List (Fin n)}
    (h : TakesUp a source nodes c c') (id : NodeId) :
    c'.handles[id]?.isSome ↔ c.handles.contains id = true ∨ id ∈ nodes.map a.identity := by
  by_cases hid : id ∈ nodes.map a.identity
  · obtain ⟨i, hi, rfl⟩ := List.mem_map.1 hid
    obtain ⟨place, hplace⟩ := List.mem_iff_getElem?.1 hi
    rw [h.cached place i hplace]
    simp [hid]
  · rw [h.others id fun i hi heq => hid (List.mem_map.2 ⟨i, hi, heq⟩)]
    simp [hid]

theorem TakesUp.nodup {c c' : Conversion} {nodes : List (Fin n)}
    (h : TakesUp a source nodes c c') : (nodes.map a.identity).Nodup := by
  rw [List.Nodup, List.pairwise_iff_getElem]
  intro p q hp hq hpq heq
  rw [List.length_map] at hp hq
  rw [List.getElem_map, List.getElem_map] at heq
  have hcached := h.cached p _ (List.getElem?_eq_getElem hp)
  rw [heq, h.cached q _ (List.getElem?_eq_getElem hq), Option.some.injEq] at hcached
  omega

/-! ## Both halves -/

theorem add_eq (c : Conversion) (a : Ast n) (source : AttributeSource n) (root : Fin n) :
    c.add a source root =
      ((a.preorder root).foldlM (addVertex a source) c).bind fun c₁ =>
        (EdgeWalk.start a (c₁.handles[·]?) c₁.graph root).map fun g => { c₁ with graph := g } := by
  rw [add, bind_eq]
  cases (a.preorder root).foldlM (addVertex a source) c with
  | error e => rfl
  | ok c₁ =>
    simp only [ok_bind]
    cases EdgeWalk.start a (c₁.handles[·]?) c₁.graph root <;> rfl

end CodeGraph.Conversion

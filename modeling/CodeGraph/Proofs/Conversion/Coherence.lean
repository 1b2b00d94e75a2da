import CodeGraph.Proofs.Conversion.Vertices
import CodeGraph.Proofs.EdgeWalk.Arcs

/-!
# What stays true of a conversion

A conversion is called any number of times, to take up a tree, to reset it or to hand over its
graph. `Coherent` says how its graph, its cache and its counter belong together. A new vertex keeps
it so (`Coherent.withVertex`), and so does the edge walk (`Coherent.start`); a call that fails
leaves an empty conversion. So it holds after every sequence of calls (`coherent_runCalls`).
-/

namespace CodeGraph.Conversion

open Attempt EdgeWalk

/-! ## Calls -/

/-- What a conversion may be called for. -/
inductive Call
  | process {n : Nat} (a : Ast n) (source : AttributeSource n) (root : Fin n)
  | reset
  | takeGraph

/-- What a call gives back. -/
inductive Answer
  | outcome (result : Except ConversionError Unit)
  | nothing
  | graph (g : PropertyGraph)

/-- Whether the conversion starts anew after an answer: always but for a tree that was taken up. -/
def Answer.StartsAnew (x : Answer) : Prop := x ≠ outcome (.ok ())

def Call.run (c : Conversion) : Call → Conversion × Answer
  | process a source root => (c.process a source root).map id .outcome
  | reset => (c.reset, .nothing)
  | takeGraph => (c.takeGraph.2, .graph c.takeGraph.1)

/-- Makes calls one after the other, and gives the answers in order. -/
def runCalls (c : Conversion) : List Call → Conversion × List Answer
  | [] => (c, [])
  | call :: rest =>
    let (c₁, answer) := call.run c
    let (c₂, answers) := runCalls c₁ rest
    (c₂, answer :: answers)

/-! ## The invariant -/

/-- Graph, cache and counter belong together. Ids are handles counted from 1. -/
structure Coherent (c : Conversion) : Prop where
  ids : c.graph.vertices.toList.map (·.id) = List.range' 1 c.graph.vertices.size
  nextId : c.nextId = c.graph.vertices.size + 1
  index : ∀ id handle : Nat, c.graph.handles[id]? = some handle ↔
    handle < c.graph.vertices.size ∧ id = handle + 1
  cacheSize : c.handles.size = c.graph.vertices.size
  cacheBound : ∀ (id : NodeId) (handle : Nat), c.handles[id]? = some handle →
    handle < c.graph.vertices.size
  cacheOnto : ∀ handle < c.graph.vertices.size, ∃ id : NodeId, c.handles[id]? = some handle
  cacheOne : ∀ (id other : NodeId) (handle : Nat), c.handles[id]? = some handle →
    c.handles[other]? = some handle → id = other
  ends : ∀ x ∈ c.graph.arcs.toList, x.tail < c.graph.vertices.size ∧
    x.head < c.graph.vertices.size ∧ x.edge.source = x.tail + 1 ∧ x.edge.target = x.head + 1
  labels : ∀ x ∈ c.graph.arcs.toList, x.edge.OfLink

theorem coherent_empty : Coherent ∅ where
  ids := rfl
  nextId := rfl
  index id handle := by
    change (∅ : Std.TreeMap Nat Nat)[id]? = some handle ↔ handle < 0 ∧ id = handle + 1
    simp
  cacheSize := rfl
  cacheBound id handle h := by
    change (∅ : Std.TreeMap NodeId Nat)[id]? = some handle at h
    simp at h
  cacheOnto _ h := absurd h (Nat.not_lt_zero _)
  cacheOne id other handle h := by
    change (∅ : Std.TreeMap NodeId Nat)[id]? = some handle at h
    simp at h
  ends _ h := absurd h List.not_mem_nil
  labels _ h := absurd h List.not_mem_nil

theorem edges_empty : (∅ : Conversion).graph.edges = #[] := Array.map_empty

theorem edgesLabeled_empty (label : String) : (∅ : Conversion).graph.edgesLabeled label = [] := by
  rw [PropertyGraph.edgesLabeled, edges_empty]
  rfl

variable {c : Conversion}

section steps

variable {n : Nat} {a : Ast n} {source : AttributeSource n} {root : Fin n}

theorem Coherent.idAt? (h : Coherent c) {handle : Nat} (hlt : handle < c.graph.vertices.size) :
    c.graph.idAt? handle = some (handle + 1) := by
  have hid : (c.graph.vertices.toList.map (·.id))[handle]? = some (handle + 1) := by
    rw [h.ids, List.getElem?_range' hlt]
    simp [Nat.add_comm]
  rw [PropertyGraph.idAt?, ← hid, List.getElem?_map, Array.getElem?_toList]

theorem cached_withVertex {i : Fin n} (hnew : c.handles[a.identity i]? = none)
    (extra : Record String) (id : NodeId) (handle : Nat) :
    (c.withVertex a i extra).handles[id]? = some handle ↔
      (id = a.identity i ∧ handle = c.graph.vertices.size) ∨ c.handles[id]? = some handle := by
  rw [getElem?_withVertex]
  split
  · next heq =>
    rw [← heq, hnew, Option.some.injEq]
    simp [eq_comm]
  · next hne => simp [Ne.symm hne]

theorem Coherent.withVertex (h : Coherent c) {i : Fin n} (hnew : c.handles[a.identity i]? = none)
    (extra : Record String) : Coherent (c.withVertex a i extra) := by
  have hsize : (c.withVertex a i extra).graph.vertices.size = c.graph.vertices.size + 1 :=
    Array.size_push _
  have hcached := cached_withVertex hnew extra
  constructor
  case ids =>
    rw [hsize, List.range'_1_concat, ← h.ids]
    simp [Conversion.withVertex, PropertyGraph.addVertex, h.nextId, Nat.add_comm]
  case nextId =>
    rw [hsize]
    exact congrArg (· + 1) h.nextId
  case index =>
    intro id handle
    rw [hsize]
    simp only [Conversion.withVertex, PropertyGraph.addVertex, Std.TreeMap.getElem?_insert,
      Std.LawfulEqCmp.compare_eq_iff_eq]
    have hold := h.index id handle
    have hnext := h.nextId
    split
    · rw [Option.some.injEq]
      omega
    · rw [hold]
      omega
  case cacheSize =>
    have hfresh : a.identity i ∉ c.handles := fun hmem => by
      rw [Std.TreeMap.mem_iff_isSome_getElem?, hnew] at hmem
      cases hmem
    rw [hsize, ← h.cacheSize]
    exact (Std.TreeMap.size_insert).trans (if_neg hfresh)
  case cacheBound =>
    intro id handle hid
    rw [hsize]
    rcases (hcached id handle).1 hid with ⟨-, rfl⟩ | hid
    · exact Nat.lt_succ_self _
    · exact Nat.lt_succ_of_lt (h.cacheBound id handle hid)
  case cacheOnto =>
    intro handle hlt
    rw [hsize] at hlt
    rcases Nat.lt_succ_iff_lt_or_eq.1 hlt with hlt | rfl
    · obtain ⟨id, hid⟩ := h.cacheOnto handle hlt
      exact ⟨id, (hcached id handle).2 (.inr hid)⟩
    · exact ⟨_, (hcached _ _).2 (.inl ⟨rfl, rfl⟩)⟩
  case cacheOne =>
    intro id other handle hid hother
    -- The new handle is above all that were in use.
    rcases (hcached id handle).1 hid with ⟨rfl, hlast⟩ | hid <;>
      rcases (hcached other handle).1 hother with ⟨rfl, hlast⟩ | hother
    · rfl
    · exact absurd (h.cacheBound _ _ hother) (by omega)
    · exact absurd (h.cacheBound _ _ hid) (by omega)
    · exact h.cacheOne id other handle hid hother
  case ends =>
    intro x hx
    rw [hsize]
    obtain ⟨htail, hhead, hends⟩ := h.ends x hx
    exact ⟨Nat.lt_succ_of_lt htail, Nat.lt_succ_of_lt hhead, hends⟩
  case labels => exact h.labels

theorem Coherent.foldlM_addVertex (h : Coherent c) {nodes : List (Fin n)} {c' : Conversion}
    (hadd : nodes.foldlM (addVertex a source) c = .ok c') : Coherent c' := by
  induction nodes generalizing c with
  | nil =>
    cases hadd
    exact h
  | cons i rest ih =>
    rw [List.foldlM_cons, bind_eq, bind_eq_ok_iff] at hadd
    obtain ⟨c₁, hi, hadd⟩ := hadd
    obtain ⟨hnew, -, rfl⟩ := addVertex_eq_ok_iff.1 hi
    exact ih (h.withVertex (Std.TreeMap.getElem?_eq_none (by simpa using hnew)) _) hadd

theorem Coherent.arc? (h : Coherent c) {change : Change} (hsound : change.Sound (c.handles[·]?))
    {x : Arc} (hx : change.arc? c.graph.idAt? = some x) :
    x.tail < c.graph.vertices.size ∧ x.head < c.graph.vertices.size ∧
      x.edge.source = x.tail + 1 ∧ x.edge.target = x.head + 1 := by
  cases change with
  | edge relation tail head =>
    obtain ⟨-, ⟨_, htail⟩, _, hhead⟩ := hsound
    have htail := h.cacheBound _ _ htail
    have hhead := h.cacheBound _ _ hhead
    simp only [Change.arc?, h.idAt? htail, h.idAt? hhead, Option.bind_eq_bind, Option.bind_some,
      Option.some.injEq] at hx
    rw [← hx]
    exact ⟨htail, hhead, rfl, rfl⟩
  | reference vertex names => cases hx

theorem Coherent.start (h : Coherent c) {g : PropertyGraph}
    (hstart : EdgeWalk.start a (c.handles[·]?) c.graph root = .ok g) :
    Coherent { c with graph := g } := by
  rw [start_eq] at hstart
  obtain ⟨changes, hchanges, rfl⟩ := map_eq_ok_iff.1 hstart
  have hsound := sound_of_changesWithin hchanges
  have hsize := size_vertices_foldl_apply c.graph changes
  -- The walk adds edges and writes references, so that ids, index and cache stay as they are.
  have hids : (changes.foldl Change.apply c.graph).vertices.toList.map (·.id) =
      c.graph.vertices.toList.map (·.id) := by
    refine List.ext_getElem? fun handle => ?_
    rw [List.getElem?_map, List.getElem?_map, Array.getElem?_toList, Array.getElem?_toList]
    exact congrFun (idAt?_foldl_apply c.graph changes) handle
  have harcs : ∀ x ∈ (changes.foldl Change.apply c.graph).arcs.toList, x ∈ c.graph.arcs.toList ∨
      ∃ change ∈ changes, change.arc? c.graph.idAt? = some x := fun x hx => by
    rw [arcs_foldl_apply, List.mem_append, List.mem_filterMap] at hx
    exact hx
  constructor
  case ids => rw [hids, hsize, h.ids]
  case nextId => rw [hsize, h.nextId]
  case index =>
    rw [handles_foldl_apply, hsize]
    exact h.index
  case cacheSize => rw [hsize, h.cacheSize]
  case cacheBound =>
    rw [hsize]
    exact h.cacheBound
  case cacheOnto =>
    rw [hsize]
    exact h.cacheOnto
  case cacheOne => exact h.cacheOne
  case ends =>
    intro x hx
    rw [hsize]
    rcases harcs x hx with hx | ⟨change, hchange, hx⟩
    · exact h.ends x hx
    · exact h.arc? (hsound change hchange) hx
  case labels =>
    intro x hx
    rcases harcs x hx with hx | ⟨change, hchange, hx⟩
    · exact h.labels x hx
    · exact (hsound change hchange).ofLink hx

theorem Coherent.add (h : Coherent c) {c' : Conversion} (hadd : c.add a source root = .ok c') :
    Coherent c' := by
  rw [add_eq, bind_eq_ok_iff] at hadd
  obtain ⟨c₁, hvertices, hadd⟩ := hadd
  obtain ⟨g, hstart, rfl⟩ := map_eq_ok_iff.1 hadd
  exact (h.foldlM_addVertex hvertices).start hstart

end steps

/-! ## What a coherent graph shows -/

theorem Coherent.mem_vertices (h : Coherent c) {v : Vertex} (hv : v ∈ c.graph.vertices.toList) :
    ∃ handle < c.graph.vertices.size, c.graph.vertices[handle]? = some v ∧ v.id = handle + 1 := by
  obtain ⟨handle, hlt, hget⟩ := List.mem_iff_getElem.1 hv
  rw [Array.length_toList] at hlt
  have hvertex : c.graph.vertices[handle]? = some v := by
    rw [← Array.getElem?_toList, List.getElem?_eq_some_iff]
    exact ⟨_, hget⟩
  have hid := h.idAt? hlt
  rw [PropertyGraph.idAt?, hvertex] at hid
  exact ⟨handle, hlt, hvertex, Option.some.inj hid⟩

theorem Coherent.vertexById? (h : Coherent c) {v : Vertex} (hv : v ∈ c.graph.vertices.toList) :
    c.graph.vertexById? v.id = some v := by
  obtain ⟨handle, hlt, hvertex, hid⟩ := h.mem_vertices hv
  rw [PropertyGraph.vertexById?, (h.index v.id handle).2 ⟨hlt, hid⟩]
  exact hvertex

theorem Coherent.exists_vertex (h : Coherent c) {handle : Nat}
    (hlt : handle < c.graph.vertices.size) :
    ∃ v ∈ c.graph.vertices.toList, v.id = handle + 1 := by
  have hid := h.idAt? hlt
  rw [PropertyGraph.idAt?, Option.map_eq_some_iff] at hid
  obtain ⟨v, hv, hid⟩ := hid
  exact ⟨v, Array.mem_toList_iff.2 (Array.mem_of_getElem? hv), hid⟩

/-- The labels that edges may have. -/
def edgeLabels : List String := ["STRUCTURAL", "RESOLVES_TO", "DECLARES", "CALLS", "OVERRIDES"]

theorem label_mem_edgeLabels {relation : Relation} (h : relation ≠ .type) :
    relation.label ∈ edgeLabels := by
  cases relation <;> first | exact absurd rfl h | decide

theorem Coherent.edge (h : Coherent c) {e : Edge} (he : e ∈ c.graph.edges.toList) :
    (∃ v ∈ c.graph.vertices.toList, v.id = e.source) ∧
    (∃ v ∈ c.graph.vertices.toList, v.id = e.target) ∧
    e.properties.entries = [("type", .text e.label)] ∧ e.label ∈ edgeLabels := by
  rw [PropertyGraph.edges, Array.toList_map] at he
  obtain ⟨x, hx, rfl⟩ := List.mem_map.1 he
  obtain ⟨htail, hhead, hsource, htarget⟩ := h.ends x hx
  obtain ⟨relation, hrel, hlabel, hentries⟩ := h.labels x hx
  rw [hsource, htarget, hlabel, hentries]
  exact ⟨h.exists_vertex htail, h.exists_vertex hhead, rfl, label_mem_edgeLabels hrel⟩

theorem Coherent.edgesFrom_eq (h : Coherent c) (id : Nat) :
    c.graph.edgesFrom id = c.graph.edges.toList.filter (·.source == id) := by
  rw [PropertyGraph.edges, Array.toList_map, List.filter_map, PropertyGraph.edgesFrom]
  split
  · next hnone =>
    have hempty : c.graph.arcs.toList.filter ((·.source == id) ∘ (·.edge)) = [] := by
      rw [List.filter_eq_nil_iff]
      intro x hx heq
      obtain ⟨htail, -, hsource, -⟩ := h.ends x hx
      have hid : x.edge.source = id := by simpa using heq
      rw [(h.index id x.tail).2 ⟨htail, hid ▸ hsource⟩] at hnone
      cases hnone
    rw [hempty]
    rfl
  · next handle hhandle =>
    obtain ⟨-, rfl⟩ := (h.index id handle).1 hhandle
    congr 1
    refine List.filter_congr fun x hx => ?_
    obtain ⟨-, -, hsource, -⟩ := h.ends x hx
    rw [Function.comp_apply, hsource, Bool.eq_iff_iff, beq_iff_eq, beq_iff_eq]
    omega

/-! ## Runs -/

/-- A call keeps a conversion coherent, whether it succeeds or fails. -/
theorem Coherent.run (h : Coherent c) (call : Call) : Coherent (call.run c).1 := by
  cases call with
  | process a source root =>
    rw [Call.run, process]
    cases hadd : c.add a source root with
    | error e => exact coherent_empty
    | ok c' => exact h.add hadd
  | reset => exact coherent_empty
  | takeGraph => exact coherent_empty

theorem Coherent.runCalls (h : Coherent c) (calls : List Call) : Coherent (c.runCalls calls).1 := by
  induction calls generalizing c with
  | nil => exact h
  | cons call rest ih => exact ih (h.run call)

theorem runCalls_cons (c : Conversion) (call : Call) (rest : List Call) :
    c.runCalls (call :: rest) =
      (((call.run c).1.runCalls rest).1, (call.run c).2 :: ((call.run c).1.runCalls rest).2) := rfl

theorem runCalls_append (c : Conversion) (calls later : List Call) :
    c.runCalls (calls ++ later) =
      (((c.runCalls calls).1.runCalls later).1,
        (c.runCalls calls).2 ++ ((c.runCalls calls).1.runCalls later).2) := by
  induction calls generalizing c with
  | nil => rfl
  | cons call rest ih =>
    rw [List.cons_append, runCalls_cons, runCalls_cons, ih, List.cons_append]

/-- Nothing is left after a tree that failed, a reset, or a graph handed over. -/
theorem run_eq_empty {call : Call} (h : (call.run c).2.StartsAnew) :
    (call.run c).1 = ∅ := by
  cases call with
  | process a source root =>
    rw [Call.run, process] at h ⊢
    cases hadd : c.add a source root with
    | error e => rfl
    | ok c' =>
      rw [hadd] at h
      exact absurd rfl h
  | reset => rfl
  | takeGraph => rfl

/-- **The invariant of a run.** After any sequence of calls, the vertices have the ids from 1 on,
the counter has the next, and the cache leads each of as many identities to a vertex of its own.
Each vertex is found under its id, and each edge leads between vertices, with its label as its only
property. Whenever a call left nothing behind, whatever comes later is as if it had come first. -/
theorem coherent_runCalls (calls : List Call) :
    let c := (runCalls ∅ calls).1
    Coherent c ∧
    (∀ v ∈ c.graph.vertices.toList, c.graph.vertexById? v.id = some v) ∧
    (∀ e ∈ c.graph.edges.toList,
      (∃ v ∈ c.graph.vertices.toList, v.id = e.source) ∧
      (∃ v ∈ c.graph.vertices.toList, v.id = e.target) ∧
      e.properties.entries = [("type", .text e.label)] ∧ e.label ∈ edgeLabels) ∧
    ∀ call : Call, (call.run c).2.StartsAnew → (call.run c).1 = ∅ ∧
      ∀ later : List Call, runCalls ∅ (calls ++ call :: later) =
        ((runCalls ∅ later).1,
          (runCalls ∅ calls).2 ++ (call.run c).2 :: (runCalls ∅ later).2) := by
  intro c
  have h : Coherent c := coherent_empty.runCalls calls
  refine ⟨h, fun v => h.vertexById?, fun e => h.edge, fun call hnew => ?_⟩
  have hempty := run_eq_empty hnew
  refine ⟨hempty, fun later => ?_⟩
  rw [runCalls_append, runCalls_cons, hempty]

end CodeGraph.Conversion

import CodeGraph.Graph.Document
import CodeGraph.Proofs.Conversion.Coherence
import CodeGraph.Proofs.Conversion.Outcome
import CodeGraph.Proofs.Conversion.Images

/-!
# Trees taken up one after the other

A tree that converts alone also converts behind others with whom it shares no identity, and adds to
their graph what its own graph is, with every id moved on by the number of vertices before
(`exists_add_behind`). So trees that share no identities give the concatenation of their graphs
(`document_runCalls_trees`).

The two walks over one tree are compared with `shows_changesWithin`: the cache of the conversion
that has taken up other trees leads to the same handles, moved on. What was there before is not
touched, since no change speaks of a handle before those of the tree.
-/

namespace CodeGraph

/-- The vertex with its id moved on. -/
def Vertex.shift (k : Nat) (v : Vertex) : Vertex := { v with id := v.id + k }

/-- The edge with the ids of its ends moved on. -/
def Edge.shift (k : Nat) (e : Edge) : Edge :=
  { e with source := e.source + k, target := e.target + k }

/-- The edge between handles that are moved on like the ids. -/
def Arc.shift (k : Nat) (x : Arc) : Arc := ⟨x.tail + k, x.head + k, x.edge.shift k⟩

/-- One document behind another, whose vertices are counted on. -/
def GraphDocument.append (d later : GraphDocument) : GraphDocument where
  version := d.version
  vertices := d.vertices ++ later.vertices.map (·.shift d.vertices.length)
  edges := d.edges ++ later.edges.map (·.shift d.vertices.length)

/-- Whether a graph is one graph with another behind it. -/
structure PropertyGraph.Behind (g later whole : PropertyGraph) : Prop where
  vertices : whole.vertices.toList =
    g.vertices.toList ++ later.vertices.toList.map (·.shift g.vertices.size)
  arcs : whole.arcs.toList = g.arcs.toList ++ later.arcs.toList.map (·.shift g.vertices.size)

/-- Whether a graph has all that another has, and possibly more behind it. -/
structure PropertyGraph.Continues (g whole : PropertyGraph) : Prop where
  vertices : g.vertices.toList <+: whole.vertices.toList
  edges : g.edges.toList <+: whole.edges.toList

namespace PropertyGraph.Behind

variable {g later whole : PropertyGraph}

theorem document (h : g.Behind later whole) :
    GraphDocument.ofGraph whole = (GraphDocument.ofGraph g).append (.ofGraph later) := by
  simp only [GraphDocument.ofGraph, GraphDocument.append, edges, Array.toList_map,
    Array.length_toList, h.vertices, h.arcs, List.map_append, List.map_map]
  rfl

theorem continues (h : g.Behind later whole) : g.Continues whole where
  vertices := by
    rw [h.vertices]
    exact List.prefix_append _ _
  edges := by
    simp only [PropertyGraph.edges, Array.toList_map, h.arcs, List.map_append]
    exact List.prefix_append _ _

theorem getElem? (h : g.Behind later whole) (handle : Nat) :
    whole.vertices[handle + g.vertices.size]? =
      later.vertices[handle]?.map (·.shift g.vertices.size) := by
  rw [← Array.getElem?_toList, h.vertices, List.getElem?_append_right (by simp)]
  simp

end PropertyGraph.Behind

namespace EdgeWalk

open Attempt

/-! ## Changes moved on -/

/-- The change at handles that are moved on. -/
def Change.shift (k : Nat) : Change → Change
  | edge relation source target => edge relation (source + k) (target + k)
  | reference vertex names => reference (vertex + k) names

theorem Change.filterMap_image? (k : Nat) (changes : List Change) :
    changes.filterMap (Change.image? (fun _ => true) (· + k)) = changes.map (Change.shift k) := by
  rw [← List.filterMap_eq_map]
  congr 1
  funext change
  cases change <;> rfl

theorem behind_apply {g later whole : PropertyGraph} (h : g.Behind later whole) (change : Change) :
    g.Behind (change.apply later) ((change.shift g.vertices.size).apply whole) := by
  cases change with
  | edge relation source target =>
    simp only [Change.shift, Change.apply, link, PropertyGraph.addEdge, h.getElem?]
    cases later.vertices[source]? with
    | none => exact h
    | some s =>
      cases later.vertices[target]? with
      | none => exact h
      | some t =>
        refine ⟨h.vertices, ?_⟩
        simp [h.arcs, Arc.shift, Edge.shift, Vertex.shift]
  | reference vertex names =>
    refine ⟨?_, h.arcs⟩
    have hlast : whole.vertices.toList.modify (vertex + g.vertices.size)
        (·.setProperty PropertyName.reference (.text names)) =
        g.vertices.toList ++ (later.vertices.toList.map (·.shift g.vertices.size)).modify vertex
          (·.setProperty PropertyName.reference (.text names)) := by
      rw [h.vertices, ← Array.length_toList, Nat.add_comm]
      exact List.modifyTailIdx_add ..
    simp only [Change.shift, Change.apply, PropertyGraph.setVertexProperty, Array.toList_modify]
    rw [hlast]
    congr 1
    apply List.ext_getElem?
    intro i
    simp only [List.getElem?_modify, List.getElem?_map]
    cases later.vertices.toList[i]? with
    | none => rfl
    | some v => by_cases hi : vertex = i <;> simp [hi, Vertex.shift, Vertex.setProperty]

theorem behind_foldl_apply {g later whole : PropertyGraph} (h : g.Behind later whole)
    (changes : List Change) :
    g.Behind (changes.foldl Change.apply later)
      ((changes.map (Change.shift g.vertices.size)).foldl Change.apply whole) := by
  induction changes generalizing later whole with
  | nil => exact h
  | cons change rest ih => exact ih (behind_apply h change)

/-! ## Changes that leave what was there -/

/-- Whether a change writes nothing into the vertices below a handle. -/
def Change.LeavesBelow (k : Nat) (change : Change) : Prop :=
  ∀ vertex names, change = .reference vertex names → k ≤ vertex

theorem take_vertices_foldl_apply {k : Nat} {changes : List Change}
    (h : ∀ change ∈ changes, change.LeavesBelow k) (g : PropertyGraph) :
    (changes.foldl Change.apply g).vertices.toList.take k = g.vertices.toList.take k := by
  induction changes generalizing g with
  | nil => rfl
  | cons change rest ih =>
    rw [List.foldl_cons, ih fun x hx => h x (List.mem_cons_of_mem _ hx)]
    cases change with
    | edge relation source target => rw [Change.apply, vertices_link]
    | reference vertex names =>
      have hle := h _ List.mem_cons_self vertex names rfl
      simp only [Change.apply, PropertyGraph.setVertexProperty, Array.toList_modify,
        List.take_modify]
      apply List.modify_eq_self
      rw [List.length_take]
      omega

variable {n : Nat} {a : Ast n} {vertexOf : NodeId → Option Nat}

theorem reference_of_changesWithin {nodes : List (Fin n)}
    (hclosed : ∀ i ∈ nodes, ∀ targets, (.structural, targets) ∈ a.links i →
      ∀ child ∈ targets, child ∈ nodes)
    {depth : Nat} {i : Fin n} (hi : i ∈ nodes) {changes : List Change}
    (h : changesWithin a vertexOf depth i = .ok changes) {vertex : Nat} {names : String}
    (hmem : .reference vertex names ∈ changes) :
    ∃ j ∈ nodes, vertexOf (a.identity j) = some vertex := by
  induction depth generalizing i changes with
  | zero => cases h
  | succ depth ih =>
    obtain ⟨own, hres, hall⟩ := bind_eq_ok_iff.1 h
    obtain ⟨⟨relation, targets⟩, hentry, ys, hys, hmem⟩ := mem_of_gather hall hmem
    cases relation with
    | structural =>
      obtain ⟨child, hchild, zs, hzs, hmem⟩ := mem_of_gather hys hmem
      obtain ⟨handle, -, hzs⟩ := bind_eq_ok_iff.1 hzs
      obtain ⟨deeper, hdeeper, rfl⟩ := map_eq_ok_iff.1 hzs
      have hmem : .reference vertex names ∈ deeper := by simpa using hmem
      exact ih (hclosed i hi targets hentry child hchild) hdeeper hmem
    -- Only a type entry writes a reference, and it writes it into the vertex of its own node.
    | type =>
      obtain ⟨joined, -, rfl⟩ := map_eq_ok_iff.1 hys
      obtain ⟨rfl, -⟩ : vertex = own ∧ names = _ := by simpa using hmem
      exact ⟨i, hi, resolve_eq_ok_iff.1 hres⟩
    | _ =>
      obtain ⟨target, -, zs, hzs, hmem⟩ := mem_of_gather hys hmem
      obtain ⟨handle, -, rfl⟩ := map_eq_ok_iff.1 hzs
      simp at hmem

end EdgeWalk

namespace Conversion

open Attempt EdgeWalk

/-! ## One tree behind others -/

section one

variable {n : Nat} {a : Ast n} {source : AttributeSource n} {root : Fin n} {c c₀ : Conversion}

theorem exists_takesUp {nodes : List (Fin n)} {c₁ : Conversion}
    (h : nodes.foldlM (addVertex a source) ∅ = .ok c₁)
    (hfresh : ∀ i ∈ nodes, ¬ c.handles.contains (a.identity i) = true) :
    ∃ c₂, nodes.foldlM (addVertex a source) c = .ok c₂ := by
  obtain ⟨hnodup, -, husable⟩ := exists_foldlM_addVertex_iff.1 ⟨c₁, h⟩
  exact exists_foldlM_addVertex_iff.2 ⟨hnodup, hfresh, husable⟩

theorem TakesUp.behind {nodes : List (Fin n)} {c₁ c₂ : Conversion}
    (h₁ : TakesUp a source nodes ∅ c₁) (h₂ : TakesUp a source nodes c c₂)
    (hnext : c.nextId = c.graph.vertices.size + 1) : c.graph.Behind c₁.graph c₂.graph where
  vertices := by
    have hempty : (∅ : Conversion).graph.vertices.toList = [] := rfl
    rw [h₂.vertices, h₁.vertices, hempty, List.nil_append, List.map_map, hnext,
      ← List.map_snd_add_zipIdx_eq_zipIdx, List.map_map]
    congr 2
  arcs := by
    have hempty : (∅ : Conversion).graph.arcs.toList = [] := rfl
    rw [h₂.arcs, h₁.arcs, hempty, List.map_nil, List.append_nil]

theorem cacheImage_of_takesUp {nodes : List (Fin n)} {c₁ c₂ : Conversion}
    (h₁ : TakesUp a source nodes ∅ c₁) (h₂ : TakesUp a source nodes c c₂) :
    CacheImage (Ast.Image.refl a) False (· + c.graph.vertices.size) (c₁.handles[·]?)
      (c₂.handles[·]?) where
  cached i handle hi := by
    have hmem : a.identity i ∈ nodes.map a.identity := by
      have hsome := (h₁.isSome_iff (a.identity i)).1 (by simp [hi])
      rcases hsome with hempty | hmem
      · change (∅ : Std.TreeMap NodeId Nat).contains (a.identity i) = true at hempty
        simp at hempty
      · exact hmem
    obtain ⟨j, hj, hsame⟩ := List.mem_map.1 hmem
    obtain ⟨place, hplace⟩ := List.mem_iff_getElem?.1 hj
    have hfirst := h₁.cached place j hplace
    rw [hsame, hi, Option.some.injEq] at hfirst
    change handle = 0 + place at hfirst
    change c₂.handles[a.identity i]? = some (handle + c.graph.vertices.size)
    rw [← hsame, h₂.cached place j hplace, hfirst]
    congr 1
    omega
  missing hfalse := hfalse.elim
  all hfalse := hfalse.elim

/-- **One tree behind others.** A tree that converts alone is taken up where none of its nodes is
known, and its own graph comes behind what was there. -/
theorem exists_add_behind {g : PropertyGraph} (halone : graphOf a source root = .ok g)
    (hnext : c.nextId = c.graph.vertices.size + 1)
    (hfresh : ∀ i ∈ a.preorder root, ¬ c.handles.contains (a.identity i) = true) :
    ∃ c', c.add a source root = .ok c' ∧ c.graph.Behind g c'.graph ∧
      ∀ id, c'.handles.contains id = true ↔
        c.handles.contains id = true ∨ id ∈ (a.preorder root).map a.identity := by
  obtain ⟨c₀, hadd, rfl⟩ := map_eq_ok_iff.1 halone
  obtain ⟨c₁, changes, hvertices₁, hchanges, rfl⟩ := add_eq_ok_iff.1 hadd
  obtain ⟨c₂, hvertices₂⟩ := exists_takesUp hvertices₁ hfresh
  have h₁ := takesUp_of_foldlM hvertices₁
  have h₂ := takesUp_of_foldlM hvertices₂
  have hmoved := (shows_changes (cacheImage_of_takesUp h₁ h₂) rfl root).1 _ hchanges
  rw [Change.filterMap_image?] at hmoved
  refine ⟨_, add_eq_ok_iff.2 ⟨c₂, _, hvertices₂, hmoved, rfl⟩,
    behind_foldl_apply (h₁.behind h₂ hnext) changes, fun id => ?_⟩
  rw [← h₂.isSome_iff, Std.TreeMap.contains_eq_isSome_getElem?]

/-- A tree none of whose nodes has two structural entries leaves what was there, even if it links to
nodes of other trees. -/
theorem continues_of_add (hone : ∀ i ∈ a.preorder root, a.structuralCount i ≤ 1)
    {c' : Conversion} (hadd : c.add a source root = .ok c') : c.graph.Continues c'.graph := by
  obtain ⟨c₁, changes, hvertices, hchanges, rfl⟩ := add_eq_ok_iff.1 hadd
  have htakes := takesUp_of_foldlM hvertices
  have hspans := Ast.spans_preorder htakes.nodup
  have hclosed : ∀ i ∈ a.preorder root, ∀ targets, (.structural, targets) ∈ a.links i →
      ∀ child ∈ targets, child ∈ a.preorder root := fun _ hi _ => hspans.target_mem hone hi
  have hbelow : ∀ change ∈ changes, change.LeavesBelow c.graph.vertices.size := by
    rintro _ hmem vertex names rfl
    obtain ⟨j, hj, hcached⟩ :=
      reference_of_changesWithin hclosed (a.mem_preorder_self root) hchanges hmem
    obtain ⟨place, hplace⟩ := List.mem_iff_getElem?.1 hj
    have hnew := htakes.cached place j hplace
    rw [hcached, Option.some.injEq] at hnew
    omega
  constructor
  case vertices =>
    rw [List.prefix_iff_eq_take, Array.length_toList, take_vertices_foldl_apply hbelow,
      htakes.vertices]
    simp
  case edges =>
    simp only [PropertyGraph.edges, Array.toList_map, arcs_foldl_apply, htakes.arcs,
      List.map_append]
    exact List.prefix_append _ _

end one

/-! ## Trees one after the other -/

/-- A tree that a conversion may take up. -/
structure Tree where
  size : Nat
  ast : Ast size
  attributes : AttributeSource size
  root : Fin size

namespace Tree

/-- The identities that pre-order meets. -/
def identities (t : Tree) : List NodeId := (t.ast.preorder t.root).map t.ast.identity

/-- The graph of the tree alone. -/
def graph (t : Tree) : Except ConversionError PropertyGraph := graphOf t.ast t.attributes t.root

def call (t : Tree) : Call := .process t.ast t.attributes t.root

end Tree

theorem run_call_of_add {c c' : Conversion} {t : Tree}
    (h : c.add t.ast t.attributes t.root = .ok c') :
    t.call.run c = (c', .outcome (.ok ())) := by
  rw [Tree.call, Call.run, process, h]
  rfl

theorem add_of_run_call {c : Conversion} {t : Tree}
    (h : (t.call.run c).2 = .outcome (.ok ())) :
    c.add t.ast t.attributes t.root = .ok (t.call.run c).1 := by
  rw [Tree.call, Call.run, process] at h ⊢
  cases hadd : c.add t.ast t.attributes t.root with
  | error e =>
    rw [hadd] at h
    cases h
  | ok c' => rfl

theorem document_runCalls_of_coherent {c : Conversion} (h : Coherent c) {trees : List Tree}
    {graphs : List PropertyGraph}
    (halone : List.Forall₂ (fun t g => t.graph = .ok g) trees graphs)
    (hdisjoint : trees.Pairwise fun t later => ∀ id ∈ t.identities, id ∉ later.identities)
    (hfresh : ∀ t ∈ trees, ∀ id ∈ t.identities, ¬ c.handles.contains id = true) :
    (c.runCalls (trees.map Tree.call)).2 = trees.map (fun _ => .outcome (.ok ())) ∧
    GraphDocument.ofGraph (c.runCalls (trees.map Tree.call)).1.graph =
      graphs.foldl (fun d g => d.append (.ofGraph g)) (.ofGraph c.graph) := by
  induction halone generalizing c with
  | nil => exact ⟨rfl, rfl⟩
  | @cons t g trees graphs hgraph _ ih =>
    obtain ⟨hfirst, hrest⟩ := List.pairwise_cons.1 hdisjoint
    obtain ⟨c', hadd, hbehind, hcached⟩ := exists_add_behind hgraph h.nextId fun i hi =>
      hfresh t List.mem_cons_self _ (List.mem_map_of_mem hi)
    have hlater : ∀ later ∈ trees, ∀ id ∈ later.identities, ¬ c'.handles.contains id = true := by
      intro later hmem id hid hknown
      rcases (hcached id).1 hknown with hold | hown
      · exact hfresh later (List.mem_cons_of_mem _ hmem) id hid hold
      · exact hfirst later hmem id hown hid
    obtain ⟨hanswers, hdocument⟩ := ih (h.add hadd) hrest hlater
    rw [List.map_cons, runCalls_cons, run_call_of_add hadd]
    refine ⟨?_, ?_⟩
    · rw [hanswers, List.map_cons]
    · rw [hdocument, List.foldl_cons, hbehind.document]

theorem continues_of_run {c : Conversion} (h : Coherent c) {t : Tree}
    (htree : (∃ g, t.graph = .ok g) ∨
      ∀ i ∈ t.ast.preorder t.root, t.ast.structuralCount i ≤ 1)
    (hrun : (t.call.run c).2 = .outcome (.ok ())) :
    c.graph.Continues (t.call.run c).1.graph := by
  have hadd := add_of_run_call hrun
  rcases htree with ⟨g, hgraph⟩ | hone
  · rw [add_eq, bind_eq_ok_iff] at hadd
    obtain ⟨c₁, hvertices, -⟩ := id hadd
    have htakes := takesUp_of_foldlM hvertices
    have hfresh : ∀ i ∈ t.ast.preorder t.root,
        ¬ c.handles.contains (t.ast.identity i) = true := by
      intro i hi
      rw [Std.TreeMap.contains_eq_isSome_getElem?, htakes.fresh i hi]
      exact Bool.false_ne_true
    obtain ⟨c', hadd', hbehind, -⟩ := exists_add_behind hgraph h.nextId hfresh
    rw [run_call_of_add hadd']
    exact hbehind.continues
  · exact continues_of_add hone hadd

/-- **Trees one after the other.** Trees that each convert alone and share no identities are all
taken up by one conversion. Its graph lists the vertices of their graphs in order and then counts
their ids on, and likewise their edges. After any calls, another one that succeeds leaves the
vertices, properties and edges that were there, if its tree converts alone or has no node with two
structural entries. -/
theorem document_runCalls_trees (trees : List Tree) (graphs : List PropertyGraph)
    (halone : List.Forall₂ (fun t g => t.graph = .ok g) trees graphs)
    (hdisjoint : trees.Pairwise fun t later => ∀ id ∈ t.identities, id ∉ later.identities) :
    (runCalls ∅ (trees.map Tree.call)).2 = trees.map (fun _ => .outcome (.ok ())) ∧
    GraphDocument.ofGraph (runCalls ∅ (trees.map Tree.call)).1.graph =
      graphs.foldl (fun d g => d.append (.ofGraph g)) (.ofGraph ∅) ∧
    ∀ (calls : List Call) (t : Tree), let c := (runCalls ∅ calls).1
      ((∃ g, t.graph = .ok g) ∨ ∀ i ∈ t.ast.preorder t.root, t.ast.structuralCount i ≤ 1) →
      (t.call.run c).2 = .outcome (.ok ()) → c.graph.Continues (t.call.run c).1.graph := by
  have hnone : ∀ t ∈ trees, ∀ id ∈ t.identities,
      ¬ (∅ : Conversion).handles.contains id = true := fun _ _ _ _ => Bool.false_ne_true
  obtain ⟨hanswers, hdocument⟩ :=
    document_runCalls_of_coherent coherent_empty halone hdisjoint hnone
  refine ⟨hanswers, hdocument, fun calls t => ?_⟩
  exact continues_of_run (coherent_empty.runCalls calls)

def node₀ : Fin 2 := ⟨0, Nat.zero_lt_two⟩

def node₁ : Fin 2 := ⟨1, Nat.one_lt_two⟩

theorem preorder_pair {a : Ast 2} (hbelow : a.children node₀ = [node₁])
    (hleaf : a.children node₁ = []) (hne : a.identity node₀ ≠ a.identity node₁) :
    a.preorder node₀ = [node₀, node₁] := by
  rw [Ast.preorder_eq_listed, Ast.listed_cons_fresh _ (by simp), hbelow, List.append_nil,
    Ast.listed_cons_fresh _ (by simpa using hne), hleaf, List.append_nil, Ast.listed_nil]

/-- A file with a name in it, which it calls, and which is its own type. -/
def namedFile (file name : NodeId) : Ast 2 :=
  ⟨#v[⟨file, "File", "x", none, none, [(.structural, [node₁]), (.calls, [node₁])]⟩,
    ⟨name, "Name", "x", some node₀, some "x", [(.type, [node₁])]⟩]⟩

def namedFileGraph : PropertyGraph :=
  [Change.edge .structural 0 1, .reference 1 "x", .edge .calls 0 1].foldl Change.apply
    (((∅ : PropertyGraph).addVertex ⟨1, properties (namedFile 1 2) node₀ ∅⟩).addVertex
      ⟨2, properties (namedFile 1 2) node₁ ∅⟩)

theorem preorder_namedFile {file name : NodeId} (h : file ≠ name) :
    (namedFile file name).preorder node₀ = [node₀, node₁] := preorder_pair rfl rfl h

theorem graphOf_namedFile : graphOf (namedFile 1 2) .none node₀ = .ok namedFileGraph ∧
    graphOf (namedFile 3 4) .none node₀ = .ok namedFileGraph := by
  simp only [graphOf, add_eq, start_eq, preorder_namedFile (show (1 : NodeId) ≠ 2 by decide),
    preorder_namedFile (show (3 : NodeId) ≠ 4 by decide)]
  exact ⟨rfl, rfl⟩

def namedFiles : List Tree :=
  [⟨2, namedFile 1 2, .none, node₀⟩, ⟨2, namedFile 3 4, .none, node₀⟩]

theorem graph_namedFiles :
    List.Forall₂ (fun t g => t.graph = .ok g) namedFiles [namedFileGraph, namedFileGraph] :=
  .cons graphOf_namedFile.1 (.cons graphOf_namedFile.2 .nil)

theorem disjoint_namedFiles :
    namedFiles.Pairwise fun t later => ∀ id ∈ t.identities, id ∉ later.identities := by
  have hidentities : ∀ file name : NodeId, file ≠ name →
      (⟨2, namedFile file name, .none, node₀⟩ : Tree).identities = [file, name] := by
    intro file name h
    rw [Tree.identities, preorder_namedFile h]
    rfl
  simp only [namedFiles, hidentities 1 2 (by decide), hidentities 3 4 (by decide),
    List.pairwise_pair]
  simp

def namedFilesDocument : GraphDocument :=
  [namedFileGraph, namedFileGraph].foldl (fun d g => d.append (.ofGraph g)) (.ofGraph ∅)

theorem ids_namedFilesDocument : namedFilesDocument.vertices.map (·.id) = [1, 2, 3, 4] := by
  simp only [namedFilesDocument, List.foldl_cons, List.foldl_nil, GraphDocument.append,
    GraphDocument.ofGraph]
  rfl

theorem edges_namedFilesDocument :
    namedFilesDocument.edges.map (fun e => (e.label, e.source, e.target)) =
      [("STRUCTURAL", 1, 2), ("CALLS", 1, 2), ("STRUCTURAL", 3, 4), ("CALLS", 3, 4)] := by
  simp only [namedFilesDocument, List.foldl_cons, List.foldl_nil, GraphDocument.append,
    GraphDocument.ofGraph, PropertyGraph.edges, Array.toList_map]
  rfl

theorem document_runCalls_namedFile :
    let document := GraphDocument.ofGraph (runCalls ∅ (namedFiles.map Tree.call)).1.graph
    (runCalls ∅ (namedFiles.map Tree.call)).2 = [.outcome (.ok ()), .outcome (.ok ())] ∧
    document.vertices.map (·.id) = [1, 2, 3, 4] ∧
    document.edges.map (fun e => (e.label, e.source, e.target)) =
      [("STRUCTURAL", 1, 2), ("CALLS", 1, 2), ("STRUCTURAL", 3, 4), ("CALLS", 3, 4)] := by
  intro document
  obtain ⟨hanswers, hdocument, -⟩ :=
    document_runCalls_trees namedFiles _ graph_namedFiles disjoint_namedFiles
  have hsame : document = namedFilesDocument := hdocument
  rw [hsame]
  exact ⟨hanswers, ids_namedFilesDocument, edges_namedFilesDocument⟩

end Conversion

end CodeGraph

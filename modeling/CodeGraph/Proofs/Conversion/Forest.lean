import CodeGraph.Proofs.Conversion.Concatenation
import CodeGraph.Proofs.Conversion.Edges
import CodeGraph.Proofs.Graph.Forest

/-!
# The structural edges form a forest

The ids of the vertices come from pre-order, and the structural edges from the edge walk. Where no
node has two structural entries they fit together: the structural links of a tree are those from
each node to its children (`Ast.Spans.perm_linkOrder`), and so the structural edges of the tree are
a forest in pre-order, with one root and the ids that the tree has got (`exists_forest_of_add`).
Each tree that is taken up comes behind those before it (`Planted.add`).
-/

namespace CodeGraph

namespace Ast

variable {n : Nat} {a : Ast n}

theorem getElem?_preorder_zero (a : Ast n) (root : Fin n) : (a.preorder root)[0]? = some root := by
  rw [preorder_eq_listed, listed_cons_fresh a (by simp)]
  rfl

theorem Spans.perm_linkOrder {roots nodes : List (Fin n)} (h : Spans a roots nodes)
    (htargets : ∀ i ∈ nodes, structuralTargets (a.links i) = a.children i) {depth : Nat}
    (hdepth : nodes.length ≤ depth) :
    (roots.flatMap fun i => (a.linkOrder depth i).filter (·.relation == .structural)).Perm
      (nodes.flatMap fun i => (a.children i).map fun child => ⟨i, .structural, child⟩) := by
  induction h generalizing depth with
  | nil => exact .refl _
  | @cons i rest below others hbelow hothers ihBelow ihOthers =>
    simp only [List.length_cons, List.length_append] at hdepth
    obtain ⟨depth, rfl⟩ : ∃ d, depth = d + 1 := ⟨depth - 1, by omega⟩
    have hbelowPerm := ihBelow (fun j hj => htargets j (by simp [hj]))
      (show below.length ≤ depth by omega)
    have hothersPerm := ihOthers (fun j hj => htargets j (by simp [hj]))
      (show others.length ≤ depth + 1 by omega)
    rw [List.flatMap_cons, filter_linkOrder, htargets i List.mem_cons_self, List.flatMap_cons,
      List.flatMap_append, ← List.append_assoc]
    refine List.Perm.append ?_ hothersPerm
    exact (List.map_append_flatMap_perm _ _ _).symm.trans (hbelowPerm.append_left _)

theorem Spans.preorderForest {roots nodes : List (Fin n)} (h : Spans a roots nodes)
    {idOf : Fin n → Nat} {lo : Nat} (hid : nodes.map idOf = List.range' lo nodes.length) :
    PreorderForest lo (roots.map idOf) (lo + nodes.length)
      (nodes.flatMap fun i => (a.children i).map fun child => (idOf i, idOf child)) := by
  induction h generalizing lo with
  | nil => exact .nil lo
  | @cons i rest below others hbelow hothers ihBelow ihOthers =>
    have hids : idOf i = lo ∧ below.map idOf = List.range' (lo + 1) below.length ∧
        others.map idOf = List.range' (lo + 1 + below.length) others.length := by
      rw [List.length_cons, List.length_append, List.range'_succ, List.range'_append_1.symm,
        List.map_cons, List.map_append, List.cons.injEq] at hid
      exact ⟨hid.1, List.append_inj hid.2 (by simp)⟩
    obtain ⟨rfl, hidBelow, hidOthers⟩ := hids
    have hforest := PreorderForest.cons (ihBelow hidBelow) (ihOthers hidOthers)
    rw [List.length_cons, List.length_append,
      show idOf i + (below.length + others.length + 1) =
        idOf i + 1 + below.length + others.length by omega]
    simpa [Function.comp_def] using hforest

end Ast

/-- The ends of the structural edges, in order. -/
def PropertyGraph.structuralLinks (g : PropertyGraph) : List (Nat × Nat) :=
  (g.edgesLabeled Relation.structural.label).map fun e => (e.source, e.target)

namespace EdgeWalk

variable {n : Nat} {a : Ast n} {vertexOf : NodeId → Option Nat} {idAt : Nat → Option Nat}

/-- The id of the vertex of a node, where it has one. -/
def idOf (a : Ast n) (vertexOf : NodeId → Option Nat) (idAt : Nat → Option Nat) (i : Fin n) : Nat :=
  ((vertexOf (a.identity i)).bind idAt).getD 0

theorem map_ends_filterMap {links : List (Ast.Link n)}
    (h : ∀ l ∈ links, (linkArc? a vertexOf idAt l).isSome) :
    (links.filterMap (linkArc? a vertexOf idAt)).map (fun x => (x.edge.source, x.edge.target)) =
      links.map fun l => (idOf a vertexOf idAt l.source, idOf a vertexOf idAt l.target) := by
  induction links with
  | nil => rfl
  | cons l rest ih =>
    obtain ⟨x, hx⟩ := Option.isSome_iff_exists.1 (h l List.mem_cons_self)
    obtain ⟨hsource, htarget⟩ := ids_of_linkArc? hx
    rw [List.filterMap_cons, hx, List.map_cons, List.map_cons,
      ih fun l hl => h l (List.mem_cons_of_mem _ hl)]
    simp [idOf, hsource, htarget]

end EdgeWalk

namespace Conversion

open Attempt EdgeWalk

variable {n : Nat} {a : Ast n} {source : AttributeSource n} {root : Fin n} {c c' : Conversion}

/-! ## One tree -/

/-- The id of the vertex of the node with an identity. -/
def vertexId? (c : Conversion) (id : NodeId) : Option Nat := (c.handles[id]?).bind c.graph.idAt?

theorem structuralLinks_eq (g : PropertyGraph) :
    g.structuralLinks = (g.arcs.toList.filter (·.edge.label == Relation.structural.label)).map
      fun x => (x.edge.source, x.edge.target) := by
  rw [PropertyGraph.structuralLinks, PropertyGraph.edgesLabeled, PropertyGraph.edges,
    Array.toList_map, List.filter_map, List.map_map]
  rfl

theorem TakesUp.idOf_eq {nodes : List (Fin n)} (h : TakesUp a source nodes c c') {place : Nat}
    {i : Fin n} (hi : nodes[place]? = some i) :
    idOf a (c'.handles[·]?) c'.graph.idAt? i = c.nextId + place := by
  simp [idOf, h.cached place i hi, h.idAt? hi]

theorem TakesUp.map_idOf {nodes : List (Fin n)} (h : TakesUp a source nodes c c') :
    nodes.map (idOf a (c'.handles[·]?) c'.graph.idAt?) = List.range' c.nextId nodes.length := by
  refine List.ext_getElem (by simp) fun place hplace _ => ?_
  rw [List.length_map] at hplace
  simp [h.idOf_eq (List.getElem?_eq_getElem hplace)]

theorem TakesUp.structuralLinks_of_start (h : TakesUp a source (a.preorder root) c c')
    (hone : ∀ i ∈ a.preorder root, a.structuralCount i ≤ 1) {g : PropertyGraph}
    (hstart : EdgeWalk.start a (c'.handles[·]?) c'.graph root = .ok g) :
    g.structuralLinks = c.graph.structuralLinks ++
      ((a.linkOrder (n + 1) root).filter (·.relation == .structural)).map fun l =>
        (idOf a (c'.handles[·]?) c'.graph.idAt? l.source,
          idOf a (c'.handles[·]?) c'.graph.idAt? l.target) := by
  rw [structuralLinks_eq, structuralLinks_eq, arcs_of_start_eq_ok hstart, h.arcs,
    List.filter_append, List.map_append, filter_linkArcs,
    map_ends_filterMap (h.isSome_structural hone)]

theorem targets_of_add (hone : ∀ i ∈ a.preorder root, a.structuralCount i ≤ 1)
    (h : c.add a source root = .ok c') :
    (c'.graph.edgesLabeled Relation.structural.label).map (·.target) =
      (c.graph.edgesLabeled Relation.structural.label).map (·.target) ++
        List.range' (c.nextId + 1) ((a.preorder root).length - 1) := by
  obtain ⟨c₁, g, htakes, hstart, rfl⟩ := exists_takesUp_of_add h
  have hids := htakes.map_idOf
  rw [htakes.preorder_eq hone, List.map_cons, List.length_cons, List.range'_succ,
    List.cons.injEq] at hids
  have hlinks := congrArg (List.map Prod.snd) (htakes.structuralLinks_of_start hone hstart)
  rw [List.map_append, PropertyGraph.structuralLinks, PropertyGraph.structuralLinks, List.map_map,
    List.map_map, List.map_map] at hlinks
  refine hlinks.trans (congrArg _ ?_)
  rw [htakes.preorder_eq hone, List.length_cons, Nat.add_sub_cancel, ← hids.2, List.map_map]
  rfl

/-- The nodes of a tree get the next ids in pre-order, and its structural edges are those from each
node to its children. -/
theorem exists_ids_of_add (hone : ∀ i ∈ a.preorder root, a.structuralCount i ≤ 1)
    (h : c.add a source root = .ok c') :
    ∃ (idOf : Fin n → Nat) (links : List (Nat × Nat)),
      (∀ place i, (a.preorder root)[place]? = some i → idOf i = c.nextId + place) ∧
      links = ((a.preorder root).flatMap fun i =>
        (a.children i).map fun child => (idOf i, idOf child)) ∧
      c'.graph.structuralLinks.Perm (c.graph.structuralLinks ++ links) ∧
      PreorderForest c.nextId [c.nextId] (c.nextId + (a.preorder root).length) links := by
  obtain ⟨c₁, g, htakes, hstart, rfl⟩ := exists_takesUp_of_add h
  have hspans := Ast.spans_preorder htakes.nodup
  have hlength := Ast.length_le_of_nodup htakes.nodup
  have htargets : ∀ i ∈ a.preorder root, Ast.structuralTargets (a.links i) = a.children i :=
    fun i hi => Ast.structuralTargets_eq_children (hone i hi)
  have hid : ∀ place i, (a.preorder root)[place]? = some i →
      idOf a (c₁.handles[·]?) c₁.graph.idAt? i = c.nextId + place :=
    fun place i hi => htakes.idOf_eq hi
  have hforest := hspans.preorderForest htakes.map_idOf
  rw [List.map_singleton, hid 0 root (a.getElem?_preorder_zero root), Nat.add_zero] at hforest
  refine ⟨_, _, hid, rfl, ?_, hforest⟩
  have hperm := hspans.perm_linkOrder htargets (show _ ≤ n + 1 by omega)
  rw [List.flatMap_singleton] at hperm
  rw [htakes.structuralLinks_of_start hone hstart]
  refine List.Perm.append_left _ ?_
  have hlinks := hperm.map fun l => (idOf a (c₁.handles[·]?) c₁.graph.idAt? l.source,
    idOf a (c₁.handles[·]?) c₁.graph.idAt? l.target)
  simpa [List.map_flatMap, Function.comp_def] using hlinks

/-- The structural edges of a tree are a forest in pre-order, with one root. -/
theorem Coherent.exists_forest_of_add (hc : Coherent c)
    (hone : ∀ i ∈ a.preorder root, a.structuralCount i ≤ 1) (h : c.add a source root = .ok c') :
    ∃ links, c'.graph.structuralLinks.Perm (c.graph.structuralLinks ++ links) ∧
      PreorderForest c.nextId [c.nextId] c'.nextId links := by
  have hnext : c'.nextId = c.nextId + (a.preorder root).length := by
    rw [(hc.add h).nextId, hc.nextId, size_of_add h]
    omega
  obtain ⟨idOf, links, -, -, hperm, hforest⟩ := exists_ids_of_add hone h
  exact ⟨links, hperm, hnext ▸ hforest⟩

theorem mem_structuralLinks {g : PropertyGraph} {v w : Nat} :
    (v, w) ∈ g.structuralLinks ↔
      ∃ e ∈ g.edgesLabeled Relation.structural.label, e.source = v ∧ e.target = w := by
  simp [PropertyGraph.structuralLinks]

theorem count_structuralLinks (g : PropertyGraph) (id : Nat) :
    (g.structuralLinks.map Prod.snd).count id =
      ((g.edgesLabeled Relation.structural.label).filter (·.target == id)).length := by
  rw [PropertyGraph.structuralLinks, List.map_map, List.count_eq_length_filter, List.filter_map,
    List.length_map]
  rfl

theorem Coherent.target_lt (hc : Coherent c) {e : Edge} (he : e ∈ c.graph.edges) :
    e.target < c.nextId := by
  obtain ⟨x, hx, rfl⟩ := Array.mem_map.1 he
  obtain ⟨-, hhead, -, htarget⟩ := hc.ends x hx.val
  rw [htarget, hc.nextId]
  omega

theorem Coherent.count_structuralLinks_eq_zero (hc : Coherent c) {id : Nat} (h : c.nextId ≤ id) :
    (c.graph.structuralLinks.map Prod.snd).count id = 0 := by
  rw [count_structuralLinks, List.length_eq_zero_iff, List.filter_eq_nil_iff]
  intro e he htarget
  have hlt := hc.target_lt (Array.mem_toList_iff.1 (List.mem_filter.1 he).1)
  rw [beq_iff_eq.1 htarget] at hlt
  omega

theorem Coherent.exists_edge_of_add (hc : Coherent c)
    (hone : ∀ i ∈ a.preorder root, a.structuralCount i ≤ 1) (h : c.add a source root = .ok c')
    {place above : Nat} {i p : Fin n} (hi : (a.preorder root)[place]? = some i)
    (hp : (a.preorder root)[above]? = some p) (hchild : i ∈ a.children p) (hroot : i ≠ root) :
    ∃ e, (c'.graph.edgesLabeled Relation.structural.label).filter
        (·.target == c.nextId + place) = [e] ∧ e.source = c.nextId + above := by
  obtain ⟨idOf, links, hid, hlinks, hperm, hforest⟩ := exists_ids_of_add hone h
  have hplace : place < (a.preorder root).length := (List.getElem?_eq_some_iff.1 hi).1
  have hpos : place ≠ 0 := by
    rintro rfl
    rw [a.getElem?_preorder_zero] at hi
    exact hroot (Option.some.inj hi).symm
  have hnew : (links.map Prod.snd).count (c.nextId + place) = 1 := by
    refine hforest.count_ends (by omega) (by omega) ?_
    rw [List.mem_singleton]
    omega
  have hcount := (hperm.map Prod.snd).count_eq (c.nextId + place)
  rw [List.map_append, List.count_append, hc.count_structuralLinks_eq_zero (by omega), hnew,
    count_structuralLinks] at hcount
  obtain ⟨e, he⟩ := List.length_eq_one_iff.1 hcount
  refine ⟨e, he, ?_⟩
  have hlink : (c.nextId + above, c.nextId + place) ∈ c'.graph.structuralLinks := by
    rw [hperm.mem_iff, List.mem_append, hlinks]
    refine .inr (List.mem_flatMap.2 ⟨p, List.mem_of_getElem? hp, List.mem_map.2 ⟨i, hchild, ?_⟩⟩)
    rw [hid place i hi, hid above p hp]
  obtain ⟨e', he', hsource, htarget⟩ := mem_structuralLinks.1 hlink
  have hmem : e' ∈ [e] := he ▸ List.mem_filter.2 ⟨he', by simpa using htarget⟩
  rw [← List.mem_singleton.1 hmem, hsource]

theorem Coherent.vertexId?_of_add (hc : Coherent c) (h : c.add a source root = .ok c') {id : NodeId}
    {v : Nat} (hv : c.vertexId? id = some v) : c'.vertexId? id = some v := by
  have hc' := hc.add h
  have hsize := size_of_add h
  rw [vertexId?, Option.bind_eq_some_iff] at hv
  obtain ⟨handle, hhandle, hv⟩ := hv
  have hlt := hc.cacheBound id handle hhandle
  rw [hc.idAt? hlt] at hv
  obtain ⟨c₁, g, htakes, -, rfl⟩ := exists_takesUp_of_add h
  have hother : ∀ i ∈ a.preorder root, a.identity i ≠ id := by
    rintro i hi rfl
    rw [htakes.fresh i hi] at hhandle
    cases hhandle
  rw [vertexId?, htakes.others id hother, hhandle, Option.bind_some, hc'.idAt? (by omega), hv]

/-! ## Trees one after the other -/

/-- What was taken up from the trees: their structural edges are a forest in pre-order, and its
roots are the vertices of the roots of the trees. -/
structure Planted (c : Conversion) (trees : List Tree) : Prop where
  coherent : Coherent c
  forest : ∃ roots links, PreorderForest 1 roots (c.graph.vertices.size + 1) links ∧
    c.graph.structuralLinks.Perm links ∧
    trees.map (fun t => c.vertexId? (t.ast.identity t.root)) = roots.map some

theorem planted_empty : Planted ∅ [] where
  coherent := coherent_empty
  forest := by
    refine ⟨[], [], .nil 1, ?_, rfl⟩
    rw [structuralLinks_eq]
    exact .refl _

theorem Planted.add {trees : List Tree} (h : Planted c trees) {t : Tree}
    (hone : ∀ i ∈ t.ast.preorder t.root, t.ast.structuralCount i ≤ 1)
    (hadd : c.add t.ast t.attributes t.root = .ok c') : Planted c' (trees ++ [t]) where
  coherent := h.coherent.add hadd
  forest := by
    have hc := h.coherent
    obtain ⟨roots, links, hforest, hperm, hroots⟩ := h.forest
    obtain ⟨later, hlater, hbehind⟩ := hc.exists_forest_of_add hone hadd
    rw [hc.nextId, (hc.add hadd).nextId] at hbehind
    refine ⟨roots ++ [c.graph.vertices.size + 1], links ++ later, hforest.append hbehind,
      hlater.trans (hperm.append_right _), ?_⟩
    have hold : trees.map (fun t => c'.vertexId? (t.ast.identity t.root)) = roots.map some := by
      rw [← hroots]
      refine List.map_congr_left fun s hs => ?_
      have hmem : c.vertexId? (s.ast.identity s.root) ∈ roots.map some :=
        hroots ▸ List.mem_map_of_mem hs
      obtain ⟨v, -, hv⟩ := List.mem_map.1 hmem
      rw [← hv, hc.vertexId?_of_add hadd hv.symm]
    have hnew : c'.vertexId? (t.ast.identity t.root) = some (c.graph.vertices.size + 1) := by
      rw [vertexId?, idAt?_of_add hadd (t.ast.getElem?_preorder_zero t.root), hc.nextId]
    rw [List.map_append, List.map_append, hold, List.map_singleton, hnew, List.map_singleton]

theorem Planted.runCalls {done trees : List Tree} (h : Planted c done)
    (hone : ∀ t ∈ trees, ∀ i ∈ t.ast.preorder t.root, t.ast.structuralCount i ≤ 1)
    (hok : (c.runCalls (trees.map Tree.call)).2 = trees.map fun _ => .outcome (.ok ())) :
    Planted (c.runCalls (trees.map Tree.call)).1 (done ++ trees) := by
  induction trees generalizing c done with
  | nil =>
    rw [List.append_nil]
    exact h
  | cons t rest ih =>
    rw [List.map_cons, runCalls_cons, List.map_cons, List.cons.injEq] at hok
    have hnext := h.add (hone t List.mem_cons_self) (add_of_run_call hok.1)
    have hrest := ih hnext (fun s hs => hone s (List.mem_cons_of_mem _ hs)) hok.2
    rw [List.append_assoc] at hrest
    exact hrest

/-! ## What the edges of trees show -/

section planted

variable {trees : List Tree} (h : Planted c trees)

include h

theorem Planted.exists_links : ∃ roots links,
    PreorderForest 1 roots (c.graph.vertices.size + 1) links ∧
    c.graph.structuralLinks.Perm links ∧
    ((c.graph.edgesLabeled Relation.structural.label).map (·.target)).Perm (links.map Prod.snd) ∧
    trees.map (fun t => c.vertexId? (t.ast.identity t.root)) = roots.map some := by
  obtain ⟨roots, links, hforest, hperm, hroots⟩ := h.forest
  refine ⟨roots, links, hforest, hperm, ?_, hroots⟩
  have hends := hperm.map Prod.snd
  rwa [PropertyGraph.structuralLinks, List.map_map] at hends

theorem Planted.id_bounds {v : Vertex} (hv : v ∈ c.graph.vertices.toList) :
    1 ≤ v.id ∧ v.id < c.graph.vertices.size + 1 := by
  obtain ⟨handle, hlt, -, hid⟩ := h.coherent.mem_vertices hv
  omega

theorem Planted.exists_root_vertex {t : Tree} (ht : t ∈ trees) :
    ∃ v ∈ c.graph.vertices.toList, c.vertexId? (t.ast.identity t.root) = some v.id ∧
      ∀ e ∈ c.graph.edgesLabeled Relation.structural.label, e.target ≠ v.id := by
  obtain ⟨roots, links, hforest, -, htargets, hroots⟩ := h.exists_links
  have hmem : c.vertexId? (t.ast.identity t.root) ∈ roots.map some :=
    hroots ▸ List.mem_map_of_mem ht
  obtain ⟨r, hr, hid⟩ := List.mem_map.1 hmem
  have hbounds := hforest.root_bounds r hr
  obtain ⟨v, hv, hvid⟩ :=
    h.coherent.exists_vertex (show r - 1 < c.graph.vertices.size by omega)
  obtain rfl : v.id = r := by omega
  refine ⟨v, hv, hid.symm, fun e he heq => hforest.not_mem_ends hr ?_⟩
  exact heq ▸ htargets.mem_iff.1 (List.mem_map_of_mem he)

theorem Planted.length_filter {v : Vertex} (hv : v ∈ c.graph.vertices.toList)
    (hother : ∀ t ∈ trees, c.vertexId? (t.ast.identity t.root) ≠ some v.id) :
    ((c.graph.edgesLabeled Relation.structural.label).filter (·.target == v.id)).length = 1 := by
  obtain ⟨roots, links, hforest, hperm, -, hroots⟩ := h.exists_links
  have hroot : v.id ∉ roots := by
    intro hr
    have hmem : some v.id ∈ trees.map fun t => c.vertexId? (t.ast.identity t.root) :=
      hroots ▸ List.mem_map_of_mem hr
    obtain ⟨t, ht, heq⟩ := List.mem_map.1 hmem
    exact hother t ht heq
  rw [← count_structuralLinks, (hperm.map Prod.snd).count_eq]
  exact hforest.count_ends (h.id_bounds hv).1 (h.id_bounds hv).2 hroot

theorem Planted.source_lt {e : Edge}
    (he : e ∈ c.graph.edgesLabeled Relation.structural.label) : e.source < e.target := by
  obtain ⟨roots, links, hforest, hperm, -, -⟩ := h.exists_links
  have hlink : (e.source, e.target) ∈ links := hperm.mem_iff.1 (List.mem_map_of_mem he)
  exact (hforest.link_bounds _ _ hlink).2.1

theorem Planted.length_add : (c.graph.edgesLabeled Relation.structural.label).length +
    trees.length = c.graph.vertices.size := by
  obtain ⟨roots, links, hforest, -, htargets, hroots⟩ := h.exists_links
  have hlength := hforest.length_add
  have hstructural := htargets.length_eq
  have hcount := congrArg List.length hroots
  simp only [List.length_map] at hstructural hcount
  omega

theorem Planted.exists_size {v : Vertex} (hv : v ∈ c.graph.vertices.toList) :
    ∃ size, ∀ w, Leads c.graph.structuralLinks v.id w ↔ v.id ≤ w ∧ w < v.id + size := by
  obtain ⟨roots, links, hforest, hperm, -, -⟩ := h.exists_links
  obtain ⟨size, hsize⟩ := hforest.exists_size v.id (h.id_bounds hv).1 (h.id_bounds hv).2
  refine ⟨size, fun w => ?_⟩
  rw [← hsize]
  exact ⟨fun h => h.mono fun e he => hperm.mem_iff.1 he,
    fun h => h.mono fun e he => hperm.mem_iff.2 he⟩

end planted

/-- **The structural edges.** Let trees be taken up one after the other from nothing, whatever was
called for before, and let none of their nodes have two structural entries. Then no structural edge
leads to the vertex of a tree's root, one leads to any other vertex, and each leads to a higher id.
So there are as many as there are vertices but for the roots. What they lead to from a vertex, with
itself, are the ids that follow its own up to some number. -/
theorem structural_forest_runCalls (before : List Call) (trees : List Tree)
    (hfresh : (runCalls ∅ before).1 = ∅)
    (hone : ∀ t ∈ trees, ∀ i ∈ t.ast.preorder t.root, t.ast.structuralCount i ≤ 1)
    (hok : ((runCalls ∅ before).1.runCalls (trees.map Tree.call)).2 =
      trees.map fun _ => .outcome (.ok ())) :
    let c := (runCalls ∅ (before ++ trees.map Tree.call)).1
    let structural := c.graph.edgesLabeled Relation.structural.label
    (∀ t ∈ trees, ∃ v ∈ c.graph.vertices.toList,
      c.vertexId? (t.ast.identity t.root) = some v.id ∧ ∀ e ∈ structural, e.target ≠ v.id) ∧
    (∀ v ∈ c.graph.vertices.toList,
      (∀ t ∈ trees, c.vertexId? (t.ast.identity t.root) ≠ some v.id) →
        (structural.filter (·.target == v.id)).length = 1) ∧
    (∀ e ∈ structural, e.source < e.target) ∧
    structural.length + trees.length = c.graph.vertices.size ∧
    ∀ v ∈ c.graph.vertices.toList, ∃ size, ∀ w,
      Leads (structural.map fun e => (e.source, e.target)) v.id w ↔ v.id ≤ w ∧ w < v.id + size := by
  intro c structural
  have hplanted : Planted c trees := by
    have hrun := planted_empty.runCalls hone (hfresh ▸ hok)
    rw [List.nil_append, ← hfresh] at hrun
    simpa only [c, runCalls_append] using hrun
  exact ⟨fun t => hplanted.exists_root_vertex, fun v => hplanted.length_filter,
    fun e => hplanted.source_lt, hplanted.length_add, fun v => hplanted.exists_size⟩

theorem structural_forest_namedFiles :
    let c := (runCalls ∅ (.reset :: namedFiles.map Tree.call)).1
    let structural := c.graph.edgesLabeled Relation.structural.label
    structural.map (fun e => (e.source, e.target)) = [(1, 2), (3, 4)] ∧
    (∀ t ∈ namedFiles, ∃ v ∈ c.graph.vertices.toList,
      c.vertexId? (t.ast.identity t.root) = some v.id ∧ ∀ e ∈ structural, e.target ≠ v.id) ∧
    structural.length + 2 = c.graph.vertices.size ∧
    ∃ size, ∀ w, Leads [(1, 2), (3, 4)] 3 w ↔ 3 ≤ w ∧ w < 3 + size := by
  intro c structural
  have hone : ∀ t ∈ namedFiles, ∀ i ∈ t.ast.preorder t.root, t.ast.structuralCount i ≤ 1 := by
    have hcount : ∀ t ∈ namedFiles, ∀ i, t.ast.structuralCount i ≤ 1 := by
      simp only [namedFiles, List.forall_mem_cons]
      decide
    exact fun t ht i _ => hcount t ht i
  have hnone : ∀ t ∈ namedFiles, ∀ id ∈ t.identities,
      ¬ (∅ : Conversion).handles.contains id = true := fun _ _ _ _ => Bool.false_ne_true
  obtain ⟨hok, hdocument⟩ :=
    document_runCalls_of_coherent coherent_empty graph_namedFiles disjoint_namedFiles hnone
  have hsame : GraphDocument.ofGraph c.graph = namedFilesDocument := hdocument
  have hvertices : c.graph.vertices.toList.map (·.id) = [1, 2, 3, 4] :=
    (congrArg (fun d => d.vertices.map (·.id)) hsame).trans ids_namedFilesDocument
  have hedges : structural.map (fun e => (e.source, e.target)) = [(1, 2), (3, 4)] := by
    have hall := (congrArg (fun d => d.edges.map fun e => (e.label, e.source, e.target))
      hsame).trans edges_namedFilesDocument
    have hsome := congrArg (fun xs => (xs.filter (·.1 == "STRUCTURAL")).map (·.2)) hall
    simp only [GraphDocument.ofGraph, List.filter_map, List.map_map] at hsome
    exact hsome
  obtain ⟨hroots, -, -, hlength, hsizes⟩ :=
    structural_forest_runCalls [.reset] namedFiles rfl hone hok
  refine ⟨hedges, hroots, hlength, ?_⟩
  obtain ⟨v, hv, hid⟩ := List.mem_map.1 (hvertices ▸ (by decide : 3 ∈ [1, 2, 3, 4]))
  obtain ⟨size, hsize⟩ := hsizes v hv
  refine ⟨size, fun w => ?_⟩
  rw [← hedges, ← hid]
  exact hsize w

end Conversion

end CodeGraph

import CodeGraph.Graph.Format
import CodeGraph.Proofs.Graph.Edits
import CodeGraph.Proofs.Json.Layout
import CodeGraph.Proofs.Json.Shape

/-!
# Graphs read back

The text of a graph is read back as a graph with the same vertices and the same edges, in the same
order (`ofText_toText_ofEdits`). This holds part by part: of values, whose integers are told from
texts by their form, of records, of vertices and edges and of the whole document. The edges of the
document are joined again to the vertices last added under the ids of their ends. Those need not be
the same vertices as before, but they have the same ids.
-/

namespace CodeGraph

open Attempt Json

/-! ## Properties -/

theorem Value.fits_toJson (v : Value) : v.toJson.Fits := by
  cases v with
  | int n => exact .int (Int64.le_toInt n) (Int.lt_trans (Int64.toInt_lt n) (by decide))
  | text s => exact .text s

theorem Value.ofReading_toJson (v : Value) (depth : Nat) :
    ofReading depth v.toJson.reading = .ok v := by
  cases v with
  | text s => rfl
  | int n =>
    have hhigh : n.toInt < (1 <<< 63 : Nat) := Int64.toInt_lt n
    by_cases hneg : n.toInt < 0
    · rw [toJson, Json.reading, if_pos hneg, Int64.ofInt_toInt]
      rfl
    · have hsmall : n.toInt.toNat < 1 <<< 63 := by omega
      have hsize : n.toInt.toNat < UInt64.size := Nat.lt_trans hsmall (by decide)
      have hback : Int64.ofNat n.toInt.toNat = n := by
        rw [← Int64.ofInt_eq_ofNat, Int.toNat_of_nonneg (Int.not_lt.1 hneg), Int64.ofInt_toInt]
      rw [toJson, Json.reading, if_neg hneg]
      unfold ofReading
      simp only [Reading.isSound, Option.isSome_some, if_true, UInt64.toNat_ofNat_of_lt' hsize,
        hback, if_pos hsmall]

theorem Properties.fits_toJson (p : Properties) : p.toJson.Fits := by
  refine .object fun e he => ?_
  obtain ⟨⟨name, v⟩, -, rfl⟩ := List.mem_map.1 he
  exact v.fits_toJson

theorem Properties.ofReading_toJson (p : Properties) {depth : Nat} (hdepth : depth < maxDepth) :
    ofReading depth p.toJson.reading = .ok p := by
  have hreading : p.toJson.reading =
      .object (p.entries.map fun e => (some e.1, e.2.toJson.reading)) true := by
    rw [toJson, Json.reading, memberReadings_eq_map, List.map_map]
    rfl
  rw [hreading]
  exact Reading.members_entries hdepth (fun v => v.toJson.reading) p
    fun e _ => e.2.ofReading_toJson (depth + 1)

/-! ## Vertices and edges -/

theorem fits_id {id : Nat} (h : id < UInt64.size) : Fits (.int id) :=
  .int (Int.le_trans (by decide) (Int.natCast_nonneg id)) (Int.ofNat_lt.2 h)

theorem natural_reading {n bound : Nat} (hsize : n < UInt64.size) (h : n < bound)
    (expected : String) : Reading.natural bound expected (reading (.int n)) = .ok n := by
  have hnonneg : ¬(n : Int) < 0 := Int.not_lt.2 (Int.natCast_nonneg n)
  rw [reading, if_neg hnonneg, Int.toNat_natCast]
  unfold Reading.natural
  simp only [UInt64.toNat_ofNat_of_lt' hsize, if_pos h]

theorem vertexIdOfReading_reading {id : Nat} (h : id < UInt64.size) :
    vertexIdOfReading (reading (.int id)) = .ok id :=
  natural_reading h h "u64"

theorem Vertex.fits_toJson {v : Vertex} (h : v.id < UInt64.size) : v.toJson.Fits := by
  refine .object ?_
  simp only [List.forall_mem_cons]
  exact ⟨fits_id h, v.properties.fits_toJson, fun e he => absurd he List.not_mem_nil⟩

theorem Vertex.ofReading_toJson {v : Vertex} (h : v.id < UInt64.size) {depth : Nat}
    (hdepth : depth + 1 < maxDepth) : ofReading depth v.toJson.reading = .ok v := by
  have hid := vertexIdOfReading_reading h
  have hproperties := v.properties.ofReading_toJson hdepth
  rw [toJson, Json.reading, memberReadings, memberReadings, memberReadings]
  refine Reading.fields_filled (Nat.lt_of_succ_lt hdepth) "Vertex"
    [.ofPart hid, .ofPart hproperties] ?_ _
  change ["id", "properties"].Nodup
  decide

theorem Edge.fits_toJson {e : Edge} (hsource : e.source < UInt64.size)
    (htarget : e.target < UInt64.size) : e.toJson.Fits := by
  refine .object ?_
  simp only [List.forall_mem_cons]
  exact ⟨.text e.label, fits_id hsource, fits_id htarget, e.properties.fits_toJson,
    fun e he => absurd he List.not_mem_nil⟩

theorem Edge.ofReading_toJson {e : Edge} (hsource : e.source < UInt64.size)
    (htarget : e.target < UInt64.size) {depth : Nat} (hdepth : depth + 1 < maxDepth) :
    ofReading depth e.toJson.reading = .ok e := by
  have hlabel : Reading.string (Json.reading (.text e.label)) = .ok e.label := rfl
  have hsource := vertexIdOfReading_reading hsource
  have htarget := vertexIdOfReading_reading htarget
  have hproperties := e.properties.ofReading_toJson hdepth
  rw [toJson, Json.reading, memberReadings, memberReadings, memberReadings, memberReadings,
    memberReadings]
  refine Reading.fields_filled (Nat.lt_of_succ_lt hdepth) "Edge"
    [.ofPart hlabel, .ofPart hsource, .ofPart htarget, .ofPart hproperties] ?_ _
  change ["label", "source", "target", "properties"].Nodup
  decide

/-! ## Documents -/

namespace GraphDocument

/-- The numbers of a document have as many bits as its format gives them. -/
structure Fits (d : GraphDocument) : Prop where
  version : d.version < UInt32.size
  vertices : ∀ v ∈ d.vertices, v.id < UInt64.size
  edges : ∀ e ∈ d.edges, e.source < UInt64.size ∧ e.target < UInt64.size

section lists

variable {α : Type} {encode : α → Json} {xs : List α}

theorem fits_array_map (h : ∀ x ∈ xs, (encode x).Fits) : Json.Fits (.array (xs.map encode)) := by
  refine .array fun j hj => ?_
  obtain ⟨x, hx, rfl⟩ := List.mem_map.1 hj
  exact h x hx

theorem items_array_map {depth : Nat} (hdepth : depth < maxDepth)
    {item : Reading → Except Offence α} (h : ∀ x ∈ xs, item (encode x).reading = .ok x) :
    Reading.items depth item (Json.reading (.array (xs.map encode))) = .ok xs := by
  rw [Json.reading, readings_eq_map, List.map_map]
  exact Reading.items_map hdepth h

end lists

variable {d : GraphDocument}

theorem Fits.toJson (h : d.Fits) : d.toJson.Fits := by
  have hversion : Json.Fits (.int d.version) := fits_id (Nat.lt_trans h.version (by decide))
  have hvertices := fits_array_map fun v hv => Vertex.fits_toJson (h.vertices v hv)
  have hedges := fits_array_map fun e he =>
    Edge.fits_toJson (h.edges e he).1 (h.edges e he).2
  refine .object ?_
  simp only [List.forall_mem_cons]
  exact ⟨hversion, hvertices, hedges, fun e he => absurd he List.not_mem_nil⟩

theorem Fits.ofReading_toJson (h : d.Fits) : ofReading d.toJson.reading = .ok d := by
  have hversion := natural_reading (Nat.lt_trans h.version (by decide)) h.version "u32"
  -- The document lies at depth 0, its lists at 1 and their items at 2.
  have hvertices : Reading.items 1 (Vertex.ofReading 2)
      (Json.reading (.array (d.vertices.map Vertex.toJson))) = .ok d.vertices :=
    items_array_map (by decide) fun v hv => Vertex.ofReading_toJson (h.vertices v hv) (by decide)
  have hedges : Reading.items 1 (Edge.ofReading 2)
      (Json.reading (.array (d.edges.map Edge.toJson))) = .ok d.edges :=
    items_array_map (by decide) fun e he =>
      Edge.ofReading_toJson (h.edges e he).1 (h.edges e he).2 (by decide)
  rw [GraphDocument.toJson, Json.reading, memberReadings, memberReadings, memberReadings,
    memberReadings]
  refine Reading.fields_filled (by decide) "GraphDocument"
    [.ofPart hversion, .ofPart hvertices, .ofPart hedges] ?_ _
  change ["version", "vertices", "edges"].Nodup
  decide

theorem Fits.decode_toText (h : d.Fits) : Reading.decode ofReading d.toJson.toText = .ok d := by
  unfold Reading.decode
  rw [ofText_toText h.toJson]
  simp only [h.ofReading_toJson, bind_eq, ok_bind, if_true]

/-! ## Joining the edges again -/

theorem vertices_foldl_addVertex (vs : List Vertex) (g : PropertyGraph) :
    (vs.foldl PropertyGraph.addVertex g).vertices.toList = g.vertices.toList ++ vs := by
  induction vs generalizing g with
  | nil => rw [List.foldl_nil, List.append_nil]
  | cons v rest ih =>
    rw [List.foldl_cons, ih, PropertyGraph.addVertex, Array.toList_push, List.append_assoc]
    rfl

theorem arcs_foldl_addVertex (vs : List Vertex) (g : PropertyGraph) :
    (vs.foldl PropertyGraph.addVertex g).arcs = g.arcs := by
  induction vs generalizing g with
  | nil => rfl
  | cons v rest ih => exact ih (g.addVertex v)

theorem indexed_foldl_addVertex (vs : List Vertex) {g : PropertyGraph} (h : g.Indexed) :
    (vs.foldl PropertyGraph.addVertex g).Indexed := by
  induction vs generalizing g with
  | nil => exact h
  | cons v rest ih => exact ih (h.addVertex v)

theorem exists_joinEdge {g : PropertyGraph} (h : g.Indexed) {e : Edge}
    (hsource : ∃ handle, g.idAt? handle = some e.source)
    (htarget : ∃ handle, g.idAt? handle = some e.target) :
    ∃ g', joinEdge g e = .ok g' ∧ g'.vertices = g.vertices ∧ g'.handles = g.handles ∧
      g'.edges.toList = g.edges.toList ++ [e] := by
  obtain ⟨_, hsource⟩ := hsource
  obtain ⟨_, htarget⟩ := htarget
  obtain ⟨tail, htail, -⟩ := h.last hsource
  obtain ⟨head, hhead, -⟩ := h.last htarget
  refine ⟨{ g with arcs := g.arcs.push ⟨tail, head, e⟩ }, ?_, rfl, rfl, ?_⟩
  · unfold joinEdge
    simp only [htail, hhead, PropertyGraph.addEdge_eq, h.found htail, h.found hhead]
  · simp [PropertyGraph.edges]

theorem exists_foldlM_joinEdge {g : PropertyGraph} (h : g.Indexed) (es : List Edge)
    (hends : ∀ e ∈ es, (∃ handle, g.idAt? handle = some e.source) ∧
      ∃ handle, g.idAt? handle = some e.target) :
    ∃ g', es.foldlM joinEdge g = .ok g' ∧ g'.vertices = g.vertices ∧
      g'.edges.toList = g.edges.toList ++ es := by
  induction es generalizing g with
  | nil => exact ⟨g, rfl, rfl, (List.append_nil _).symm⟩
  | cons e rest ih =>
    obtain ⟨hsource, htarget⟩ := hends e List.mem_cons_self
    obtain ⟨g₁, hjoin, hvertices, hhandles, hedges⟩ := exists_joinEdge h hsource htarget
    -- The next edges find the same ids under the same handles.
    have hid : g₁.idAt? = g.idAt? := PropertyGraph.idAt?_congr hvertices
    obtain ⟨g₂, hrest, hvertices₂, hedges₂⟩ := ih (h.of_idAt? hid hhandles) fun e he => by
      rw [hid]
      exact hends e (List.mem_cons_of_mem _ he)
    refine ⟨g₂, ?_, hvertices₂.trans hvertices, ?_⟩
    · rw [List.foldlM_cons, hjoin, bind_eq, ok_bind, hrest]
    · rw [hedges₂, hedges, ← List.append_cons]

end GraphDocument

/-! ## Graphs -/

namespace PropertyGraph

variable {g : PropertyGraph}

theorem exists_idAt?_of_mem {v : Vertex} (h : v ∈ g.vertices.toList) :
    ∃ handle, g.idAt? handle = some v.id := by
  obtain ⟨handle, hv⟩ := List.mem_iff_getElem?.1 h
  refine ⟨handle, ?_⟩
  rw [idAt?, ← Array.getElem?_toList, hv, Option.map_some]

theorem Linked.ends_of_mem (h : g.Linked) {e : Edge} (he : e ∈ g.edges.toList) :
    (∃ handle, g.idAt? handle = some e.source) ∧ ∃ handle, g.idAt? handle = some e.target := by
  rw [edges, Array.toList_map] at he
  obtain ⟨x, hx, rfl⟩ := List.mem_map.1 he
  obtain ⟨k, hk⟩ := List.mem_iff_getElem?.1 hx
  obtain ⟨htail, hhead⟩ := h.ends ((Array.getElem?_toList ..).symm.trans hk)
  exact ⟨⟨_, htail⟩, _, hhead⟩

theorem Linked.fits_ofGraph (h : g.Linked) : (GraphDocument.ofGraph g).Fits where
  version := by
    change formatVersion < UInt32.size
    decide
  vertices v hv := by
    obtain ⟨handle, hid⟩ := exists_idAt?_of_mem hv
    exact h.ids hid
  edges e he := by
    obtain ⟨⟨tail, htail⟩, head, hhead⟩ := h.ends_of_mem he
    exact ⟨h.ids htail, h.ids hhead⟩

theorem Linked.exists_toGraph (h : g.Linked) :
    ∃ g', (GraphDocument.ofGraph g).toGraph = .ok g' ∧ g'.vertices = g.vertices ∧
      g'.edges = g.edges := by
  have hvertices : (g.vertices.toList.foldl PropertyGraph.addVertex ∅).vertices = g.vertices :=
    Array.toList_inj.1 (GraphDocument.vertices_foldl_addVertex g.vertices.toList ∅)
  have hedges : (g.vertices.toList.foldl PropertyGraph.addVertex ∅).edges.toList = [] := by
    rw [edges, GraphDocument.arcs_foldl_addVertex, Array.toList_map]
    rfl
  have hindexed := GraphDocument.indexed_foldl_addVertex g.vertices.toList indexed_empty
  obtain ⟨g', hjoin, hvertices', hedges'⟩ :=
    GraphDocument.exists_foldlM_joinEdge hindexed g.edges.toList fun e he => by
      rw [idAt?_congr hvertices]
      exact h.ends_of_mem he
  refine ⟨g', hjoin, hvertices'.trans hvertices, Array.toList_inj.1 ?_⟩
  rw [hedges', hedges, List.nil_append]

theorem Linked.exists_ofText_toText (h : g.Linked) :
    ∃ g', ofText g.toText = .ok g' ∧ g'.vertices = g.vertices ∧ g'.edges = g.edges := by
  obtain ⟨g', hgraph, hsame⟩ := h.exists_toGraph
  refine ⟨g', ?_, hsame⟩
  have hversion : (GraphDocument.ofGraph g).version = formatVersion := rfl
  unfold ofText toText
  rw [h.fits_ofGraph.decode_toText]
  simp only [Except.mapError, bind_eq, ok_bind, if_pos hversion, hgraph]

/-- Whatever edits make a graph, its text is read back as a graph with the same vertices and the
same edges, in the same order. -/
theorem ofText_toText_ofEdits (edits : List Edit) :
    ∃ g, ofText (ofEdits edits).toText = .ok g ∧ g.vertices = (ofEdits edits).vertices ∧
      g.edges = (ofEdits edits).edges :=
  (linked_ofEdits edits).exists_ofText_toText

end PropertyGraph

end CodeGraph

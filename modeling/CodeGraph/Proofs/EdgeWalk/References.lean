import CodeGraph.Proofs.Conversion.Concatenation
import CodeGraph.Proofs.Record

/-!
# What an edge walk writes into vertices

Only references are written, and the last one written into a vertex stays
(`getElem?_vertices_foldl_apply`). Over a forest in which different nodes have different vertices,
what is written into the vertex of a node are the joined names of its type entries, in order
(`names_of_spans`): what the walk does below the node concerns other vertices.
-/

namespace CodeGraph

open Attempt

variable {n : Nat}

/-- The joined names of an entry, if it is one of types. -/
def Ast.joinedNames? (a : Ast n) (entry : Relation × List (Fin n)) : Option String :=
  if entry.1 = .type then some (",".intercalate (entry.2.filterMap a.name?)) else none

/-- The joined names of the type entries of a node, in order. -/
def Ast.references (a : Ast n) (i : Fin n) : List String := (a.links i).filterMap a.joinedNames?

/-- The vertex after some references were written into it one after the other. -/
def Vertex.withReferences (v : Vertex) (references : List String) : Vertex :=
  references.foldl (fun v names => v.setProperty PropertyName.reference (.text names)) v

theorem Vertex.id_withReferences (v : Vertex) (references : List String) :
    (v.withReferences references).id = v.id := by
  induction references generalizing v with
  | nil => rfl
  | cons first rest ih => exact ih (v.setProperty _ _)

theorem Vertex.get?_withReferences (v : Vertex) (references : List String) (name : String) :
    (v.withReferences references).properties.get? name =
      if PropertyName.reference = name then
        (references.getLast?.map .text).or (v.properties.get? name)
      else v.properties.get? name := by
  induction references generalizing v with
  | nil => simp [withReferences]
  | cons first rest ih =>
    change ((v.setProperty _ _).withReferences rest).properties.get? name = _
    rw [ih, setProperty, Record.get?_insert]
    by_cases hname : PropertyName.reference = name
    · simp only [hname, if_true, List.getLast?_cons]
      cases rest.getLast? <;> rfl
    · simp only [hname, if_false]

namespace EdgeWalk

/-- What a change writes into a certain vertex. -/
def Change.namesFor? (vertex : Nat) : Change → Option String
  | edge _ _ _ => none
  | reference other names => if other = vertex then some names else none

/-! ## What is written -/

theorem getElem?_vertices_apply (g : PropertyGraph) (change : Change) (vertex : Nat) :
    (change.apply g).vertices[vertex]? =
      g.vertices[vertex]?.map (·.withReferences (change.namesFor? vertex).toList) := by
  cases change with
  | edge relation source target =>
    simp [Change.apply, Change.namesFor?, vertices_link, Vertex.withReferences]
  | reference other names =>
    rw [Change.apply, PropertyGraph.setVertexProperty, Array.getElem?_modify, Change.namesFor?]
    split
    · rfl
    · simp [Vertex.withReferences]

theorem getElem?_vertices_foldl_apply (g : PropertyGraph) (changes : List Change) (vertex : Nat) :
    (changes.foldl Change.apply g).vertices[vertex]? =
      g.vertices[vertex]?.map (·.withReferences (changes.filterMap (Change.namesFor? vertex))) := by
  induction changes generalizing g with
  | nil => simp [Vertex.withReferences]
  | cons change rest ih =>
    rw [List.foldl_cons, ih, getElem?_vertices_apply, Option.map_map]
    congr 1
    funext v
    cases h : change.namesFor? vertex <;> simp [h, Vertex.withReferences]

/-! ## Who writes -/

variable {a : Ast n} {vertexOf : NodeId → Option Nat} {i : Fin n} {vertex own depth : Nat}
  {entry : Relation × List (Fin n)} {changes : List Change}
  {below : Fin n → Except ConversionError (List Change)}

theorem mapM_typeName_eq_ok_iff {source : String} {targets : List (Fin n)} {names : List String} :
    targets.mapM (typeName a source) = .ok names ↔ targets.map a.name? = names.map some := by
  induction targets generalizing names with
  | nil => cases names <;> simp [pure, Except.pure]
  | cons target rest ih =>
    rw [mapM_cons, typeName, List.map_cons]
    cases hname : a.name? target with
    | none => cases names <;> simp
    | some name =>
      simp only [ok_bind, map_eq_ok_iff, ih]
      cases names <;> simp [and_comm]

theorem filterMap_of_map_eq {f : Fin n → Option String} {targets : List (Fin n)}
    {names : List String} (h : targets.map f = names.map some) : targets.filterMap f = names := by
  have hid := congrArg (List.filterMap id) h
  simpa [List.filterMap_map] using hid

/-- What an entry writes into a vertex: its own names, or what is written below the children. -/
theorem names_of_entryChanges {deeper : List String} (hone : a.structuralCount i ≤ 1)
    (hentry : entry ∈ a.links i)
    (hbelow : ∀ found, gather below (a.children i) = .ok found →
      found.filterMap (Change.namesFor? vertex) = deeper)
    (h : entryChanges a vertexOf below i own entry = .ok changes) :
    changes.filterMap (Change.namesFor? vertex) =
      (if own = vertex then (a.joinedNames? entry).toList else []) ++
        if entry.1 = .structural then deeper else [] := by
  obtain ⟨relation, targets⟩ := entry
  by_cases hs : relation = .structural
  · subst hs
    rw [entryChanges] at h
    have hitem : ∀ child ∈ targets, ∀ ys,
        ((resolve a vertexOf .structural (a.kind i) child).bind fun handle =>
          (below child).map fun found => .edge .structural own handle :: found) = .ok ys →
        ∃ found, below child = .ok found ∧
          ys.filterMap (Change.namesFor? vertex) = found.filterMap (Change.namesFor? vertex) := by
      intro child _ ys hys
      obtain ⟨handle, -, hys⟩ := bind_eq_ok_iff.1 hys
      obtain ⟨found, hfound, rfl⟩ := map_eq_ok_iff.1 hys
      exact ⟨found, hfound, rfl⟩
    obtain ⟨found, hfound, heq⟩ := exists_gather_eq h hitem
    rw [← Ast.children_eq_of_mem hone hentry] at hfound
    rw [heq, hbelow found hfound]
    simp [Ast.joinedNames?]
  · rw [if_neg hs, List.append_nil]
    by_cases ht : relation = .type
    · subst ht
      rw [entryChanges] at h
      obtain ⟨names, hnames, rfl⟩ := map_eq_ok_iff.1 h
      rw [Ast.joinedNames?, if_pos rfl, filterMap_of_map_eq (mapM_typeName_eq_ok_iff.1 hnames)]
      split <;> simp_all [Change.namesFor?]
    · rw [entryChanges_semantic hs ht] at h
      have hnone : changes.filterMap (Change.namesFor? vertex) = [] := by
        rw [List.filterMap_eq_nil_iff]
        intro change hchange
        obtain ⟨target, -, ys, hys, hmem⟩ := mem_of_gather h hchange
        obtain ⟨handle, -, rfl⟩ := map_eq_ok_iff.1 hys
        rw [List.mem_singleton.1 hmem, Change.namesFor?]
      rw [hnone, Ast.joinedNames?, if_neg ht]
      simp

theorem names_of_links {deeper : List String} (hone : a.structuralCount i ≤ 1)
    (hbelow : ∀ found, gather below (a.children i) = .ok found →
      found.filterMap (Change.namesFor? vertex) = deeper)
    (h : gather (entryChanges a vertexOf below i own) (a.links i) = .ok changes) :
    changes.filterMap (Change.namesFor? vertex) =
      (a.links i).flatMap fun entry =>
        (if own = vertex then (a.joinedNames? entry).toList else []) ++
          if entry.1 = .structural then deeper else [] := by
  have hall := filterMap_gather h (Change.namesFor? vertex) _ some fun entry hentry ys hys => by
    rw [List.filterMap_some]
    exact names_of_entryChanges hone hentry hbelow hys
  rwa [List.filterMap_some] at hall

theorem names_of_own (hone : a.structuralCount i ≤ 1)
    (hvertex : vertexOf (a.identity i) = some vertex)
    (hbelow : ∀ depth found, gather (changesWithin a vertexOf depth) (a.children i) = .ok found →
      found.filterMap (Change.namesFor? vertex) = [])
    (h : changesWithin a vertexOf depth i = .ok changes) :
    changes.filterMap (Change.namesFor? vertex) = a.references i := by
  obtain _ | depth := depth
  · cases h
  obtain ⟨own, hown, hlinks⟩ := bind_eq_ok_iff.1 h
  rw [resolve_eq_ok_iff, hvertex, Option.some.injEq] at hown
  rw [names_of_links hone (hbelow depth) hlinks, Ast.references]
  simp [hown, List.filterMap_eq_flatMap_toList]

theorem names_of_other {deeper : List String} (hone : a.structuralCount i ≤ 1)
    (hother : vertexOf (a.identity i) ≠ some vertex)
    (hbelow : ∀ depth found, gather (changesWithin a vertexOf depth) (a.children i) = .ok found →
      found.filterMap (Change.namesFor? vertex) = deeper)
    (h : changesWithin a vertexOf depth i = .ok changes) :
    changes.filterMap (Change.namesFor? vertex) =
      (List.replicate (a.structuralCount i) deeper).flatten := by
  obtain _ | depth := depth
  · cases h
  obtain ⟨own, hown, hlinks⟩ := bind_eq_ok_iff.1 h
  have hne : own ≠ vertex := by
    rintro rfl
    exact hother (resolve_eq_ok_iff.1 hown)
  rw [names_of_links hone (hbelow depth) hlinks, Ast.structuralCount, ← Lists.flatMap_ite]
  simp [hne]

/-! ## Over a forest -/

variable {roots nodes : List (Fin n)} {j : Fin n}

theorem names_eq_nil (hspans : a.Spans roots nodes) (hone : ∀ k ∈ nodes, a.structuralCount k ≤ 1)
    (hother : ∀ k ∈ nodes, vertexOf (a.identity k) ≠ some vertex)
    (h : gather (changesWithin a vertexOf depth) roots = .ok changes) :
    changes.filterMap (Change.namesFor? vertex) = [] := by
  rw [List.filterMap_eq_nil_iff]
  intro change hchange
  obtain ⟨root, hroot, ys, hys, hmem⟩ := mem_of_gather h hchange
  cases change with
  | edge relation source target => rfl
  | reference written names =>
    obtain ⟨k, hk, hvertex⟩ := reference_of_changesWithin
      (fun k hk _ => hspans.target_mem hone hk) (hspans.root_mem root hroot) hys hmem
    rw [Change.namesFor?, if_neg]
    rintro rfl
    exact hother k hk hvertex

/-- Where a node is the only one with its vertex, its references are written there in order. -/
theorem names_of_spans (hspans : a.Spans roots nodes) (hone : ∀ k ∈ nodes, a.structuralCount k ≤ 1)
    (hnodup : nodes.Nodup) (hj : j ∈ nodes) (hvertex : vertexOf (a.identity j) = some vertex)
    (hinj : ∀ k ∈ nodes, vertexOf (a.identity k) = some vertex → k = j)
    (h : gather (changesWithin a vertexOf depth) roots = .ok changes) :
    changes.filterMap (Change.namesFor? vertex) = a.references j := by
  induction hspans generalizing depth changes with
  | nil => exact absurd hj List.not_mem_nil
  | @cons i rest below others hbelow hothers ihBelow ihOthers =>
    obtain ⟨hi, hnodup⟩ := List.nodup_cons.1 hnodup
    obtain ⟨hnodupBelow, hnodupOthers, hdisjoint⟩ := List.nodup_append.1 hnodup
    rw [List.mem_append, not_or] at hi
    have honeBelow : ∀ k ∈ below, a.structuralCount k ≤ 1 := fun k hk => hone k (by simp [hk])
    have honeOthers : ∀ k ∈ others, a.structuralCount k ≤ 1 := fun k hk => hone k (by simp [hk])
    -- A part of the forest without the node writes nothing into its vertex.
    have hsilent : ∀ part : List (Fin n), (∀ k ∈ part, k ∈ i :: (below ++ others)) → j ∉ part →
        ∀ k ∈ part, vertexOf (a.identity k) ≠ some vertex := fun part hpart hj k hk hv =>
      hj (hinj k (hpart k hk) hv ▸ hk)
    obtain ⟨first, hfirst, h⟩ := bind_eq_ok_iff.1 h
    obtain ⟨later, hlater, rfl⟩ := map_eq_ok_iff.1 h
    rw [List.filterMap_append]
    rcases List.mem_cons.1 hj with rfl | hj
    · rw [names_of_own (hone j (by simp)) hvertex (fun _ _ => names_eq_nil hbelow honeBelow
          (hsilent below (by simp +contextual) hi.1)) hfirst,
        names_eq_nil hothers honeOthers (hsilent others (by simp +contextual) hi.2) hlater,
        List.append_nil]
    have hroot : vertexOf (a.identity i) ≠ some vertex := by
      intro hv
      have heq := hinj i List.mem_cons_self hv
      subst heq
      exact (List.mem_append.1 hj).elim hi.1 hi.2
    rcases List.mem_append.1 hj with hj | hj
    · have hlast : j ∉ others := fun hlast => hdisjoint j hj j hlast rfl
      have hentry : a.structuralCount i = 1 := by
        obtain ⟨child, hchild⟩ := hbelow.exists_root hj
        have hpos : 0 < a.structuralCount i :=
          List.countP_pos_iff.2 ⟨_, Ast.mem_links_of_mem_children hchild, rfl⟩
        have hle := hone i List.mem_cons_self
        omega
      rw [names_of_other (hone i (by simp)) hroot (fun _ _ =>
          ihBelow honeBelow hnodupBelow hj fun k hk => hinj k (by simp [hk])) hfirst,
        names_eq_nil hothers honeOthers (hsilent others (by simp +contextual) hlast) hlater]
      simp [hentry]
    · have hearly : j ∉ below := fun hearly => hdisjoint j hearly j hj rfl
      rw [names_of_other (hone i (by simp)) hroot (fun _ _ => names_eq_nil hbelow honeBelow
          (hsilent below (by simp +contextual) hearly)) hfirst,
        ihOthers honeOthers hnodupOthers hj (fun k hk => hinj k (by simp [hk])) hlater]
      simp

end EdgeWalk

end CodeGraph

import CodeGraph.Proofs.Conversion.Extras

/-!
# The properties of each vertex

A vertex says of its node what `Ast.Says` lists, and nothing else (`contents_of_add`). It is written
in two halves: kind, parent, text and extra attributes when the node is taken up, and the reference
by the edge walk, where the last type entry of the node counts.
-/

namespace CodeGraph

open Attempt

/-- All that is said of a node, given its extra attributes. -/
inductive Ast.Says {n : Nat} (a : Ast n) (i : Fin n) (extra : Record String) :
    String → Value → Prop
  | kind : Says a i extra "type" (.text (a.kind i))
  | parent (parent : Fin n) (h : a.parent? i = some parent) :
      Says a i extra "parentType" (.text (a.kind parent))
  | text : Says a i extra "text" (.text (a.text i))
  | extra (name value : String) (h : (name, value) ∈ extra.entries) :
      Says a i extra name (.text value)
  /-- Of several type entries the last one counts. -/
  | reference (before after : List (Relation × List (Fin n))) (targets : List (Fin n))
      (names : List String) (hlinks : a.links i = before ++ (.type, targets) :: after)
      (hlast : ∀ entry ∈ after, entry.1 ≠ .type) (hnames : targets.map a.name? = names.map some) :
      Says a i extra "reference" (.text (",".intercalate names))

variable {n : Nat} {a : Ast n} {i : Fin n} {extra : Record String}

/-! ## One vertex -/

theorem Ast.joinedNames?_eq_some_iff {entry : Relation × List (Fin n)} {joined : String} :
    a.joinedNames? entry = some joined ↔
      entry.1 = .type ∧ joined = ",".intercalate (entry.2.filterMap a.name?) := by
  rw [joinedNames?]
  split
  · next h => simp [h, eq_comm]
  · next h => simp [h]

theorem Ast.getLast?_references_eq_some_iff {joined : String} :
    (a.references i).getLast? = some joined ↔ ∃ before targets after,
      a.links i = before ++ (.type, targets) :: after ∧ (∀ entry ∈ after, entry.1 ≠ .type) ∧
        joined = ",".intercalate (targets.filterMap a.name?) := by
  have hnone : ∀ entry : Relation × List (Fin n), a.joinedNames? entry = none ↔
      entry.1 ≠ .type := fun entry => by simp [joinedNames?]
  rw [references, List.getLast?_filterMap, List.findSome?_eq_some_iff]
  simp only [hnone, joinedNames?_eq_some_iff]
  constructor
  · rintro ⟨after, ⟨relation, targets⟩, before, hlinks, ⟨hrel, hjoined⟩, hlast⟩
    simp only at hrel
    subst hrel
    refine ⟨before.reverse, targets, after.reverse, ?_, by simpa using hlast, hjoined⟩
    simpa using congrArg List.reverse hlinks
  · rintro ⟨before, targets, after, hlinks, hlast, hjoined⟩
    refine ⟨after.reverse, (.type, targets), before.reverse, ?_, ⟨rfl, hjoined⟩, ?_⟩
    · simp [hlinks]
    · simpa using hlast

namespace Conversion

open EdgeWalk PropertyGraph

theorem says_of_get?_empty {name : String} {value : Value}
    (h : (properties a i ∅).get? name = some value) : a.Says i extra name value := by
  rw [get?_properties_empty] at h
  split at h
  · next hname =>
    subst hname
    cases h
    exact .text
  · split at h
    · next hname =>
      subst hname
      obtain ⟨parent, hparent, rfl⟩ := Option.map_eq_some_iff.1 h
      exact .parent parent hparent
    · split at h
      · next hname =>
        subst hname
        cases h
        exact .kind
      · cases h

theorem says_iff (hextra : ∀ e ∈ extra.entries, e.1 ∉ PropertyName.reserved)
    (hnamed : ∀ targets, (.type, targets) ∈ a.links i →
      ∀ target ∈ targets, (a.name? target).isSome) (id : Nat) (name : String) (value : Value) :
    (name, value) ∈
      ((⟨id, properties a i extra⟩ : Vertex).withReferences (a.references i)).properties.entries ↔
      a.Says i extra name value := by
  -- A reserved name is not among the extra attributes, so that only the node says what it has.
  have hown : ∀ {name}, name ∈ PropertyName.reserved →
      (properties a i extra).get? name = (properties a i ∅).get? name := fun hname =>
    get?_properties_reserved a i hextra hname
  rw [← Record.get?_eq_some_iff, Vertex.get?_withReferences]
  constructor
  · intro h
    split at h
    · next hname =>
      subst hname
      rw [hown (by decide), get?_properties_empty, if_neg (by decide), if_neg (by decide),
        if_neg (by decide), Option.or_none, Option.map_eq_some_iff] at h
      obtain ⟨joined, hjoined, rfl⟩ := h
      obtain ⟨before, targets, after, hlinks, hlast, rfl⟩ :=
        Ast.getLast?_references_eq_some_iff.1 hjoined
      refine .reference before after targets _ hlinks hlast ?_
      rw [List.map_filterMap_some_eq_filter_map_isSome, List.filter_eq_self.2]
      simpa using hnamed targets (by simp [hlinks])
    · simp only [get?_properties_or a i extra name, Option.or_eq_some_iff] at h
      rcases h with h | ⟨-, h⟩
      · obtain ⟨given, hgiven, rfl⟩ := Option.map_eq_some_iff.1 h
        exact .extra name given (Record.get?_eq_some_iff.1 hgiven)
      · exact says_of_get?_empty h
  · rintro (_ | ⟨parent, hparent⟩ | _ | ⟨_, given, hgiven⟩ |
      ⟨before, after, targets, names, hlinks, hlast, hnames⟩)
    · rw [if_neg (by decide), hown (by decide), get?_properties_empty]
      rfl
    · rw [if_neg (by decide), hown (by decide), get?_properties_empty, hparent]
      rfl
    · rw [if_neg (by decide), hown (by decide), get?_properties_empty]
      rfl
    · have hname : name ∉ PropertyName.reserved := hextra _ hgiven
      have hother : PropertyName.reference ≠ name := fun heq => hname (heq ▸ by decide)
      rw [if_neg hother, get?_properties a i extra hname, Record.get?_eq_some_iff.2 hgiven]
      rfl
    · have hjoined : (a.references i).getLast? = some (",".intercalate names) :=
        Ast.getLast?_references_eq_some_iff.2
          ⟨before, targets, after, hlinks, hlast, by rw [filterMap_of_map_eq hnames]⟩
      rw [if_pos (show PropertyName.reference = "reference" from rfl), hjoined]
      rfl

/-! ## The vertices of a tree -/

variable {source other : AttributeSource n} {root : Fin n} {c c' d d' : Conversion}

theorem convertible_of_add (hone : ∀ k ∈ a.preorder root, a.structuralCount k ≤ 1)
    (h : c.add a source root = .ok c') : c.Convertible a source root := by
  rw [← fault?_eq_none_iff hone, ← failure?_add hone]
  exact failure?_eq_none_iff.2 ⟨c', h⟩

theorem TakesUp.node_eq {nodes : List (Fin n)} (h : TakesUp a source nodes c c') {place : Nat}
    (hi : nodes[place]? = some i) :
    ∀ k ∈ nodes, c'.handles[a.identity k]? = some (c.graph.vertices.size + place) → k = i := by
  intro k hk hcached
  obtain ⟨other, hother⟩ := List.mem_iff_getElem?.1 hk
  rw [h.cached other k hother, Option.some.injEq] at hcached
  obtain rfl : other = place := by omega
  rw [hi, Option.some.injEq] at hother
  exact hother.symm

theorem TakesUp.getElem?_vertices {nodes : List (Fin n)} (h : TakesUp a source nodes c c')
    {place : Nat} (hi : nodes[place]? = some i) :
    c'.graph.vertices[c.graph.vertices.size + place]? =
      some ⟨c.nextId + place, properties a i (extraOf source i)⟩ := by
  rw [← Array.getElem?_toList, h.vertices, List.getElem?_append_right (by simp)]
  simp [hi]

/-- The vertex of a node has the next id but so many. The node's references were written into it
after its other properties. -/
theorem exists_vertex_of_add (hone : ∀ k ∈ a.preorder root, a.structuralCount k ≤ 1)
    (h : c.add a source root = .ok c') {place : Nat}
    (hi : (a.preorder root)[place]? = some i) :
    ∃ extra, source i = .ok extra ∧ (∀ e ∈ extra.entries, e.1 ∉ PropertyName.reserved) ∧
      c'.graph.vertices[c.graph.vertices.size + place]? =
        some ((⟨c.nextId + place, properties a i extra⟩ : Vertex).withReferences
          (a.references i)) := by
  have hmem : i ∈ a.preorder root := List.mem_of_getElem? hi
  obtain ⟨extra, hsource, hextra⟩ := (convertible_of_add hone h).usable i hmem
  obtain ⟨c₁, changes, hvertices, hchanges, rfl⟩ := add_eq_ok_iff.1 h
  have htakes := takesUp_of_foldlM hvertices
  have hall : gather (changesWithin a (c₁.handles[·]?) (n + 1)) [root] = .ok changes := by
    simp [gather, hchanges]
  have hnames := names_of_spans (Ast.spans_preorder htakes.nodup) hone htakes.nodup.of_map hmem
    (htakes.cached place i hi) (htakes.node_eq hi) hall
  have hextraOf : extraOf source i = extra := by rw [extraOf, hsource]
  refine ⟨extra, hsource, hextra, ?_⟩
  rw [getElem?_vertices_foldl_apply, htakes.getElem?_vertices hi, hnames, hextraOf, Option.map_some]

theorem contents_of_add (hone : ∀ k ∈ a.preorder root, a.structuralCount k ≤ 1)
    (h : c.add a source root = .ok c') {place : Nat}
    (hi : (a.preorder root)[place]? = some i) :
    ∃ v extra, c'.graph.vertices[c.graph.vertices.size + place]? = some v ∧
      v.id = c.nextId + place ∧ source i = .ok extra ∧
      ∀ name value, (name, value) ∈ v.properties.entries ↔ a.Says i extra name value := by
  obtain ⟨extra, hsource, hextra, hv⟩ := exists_vertex_of_add hone h hi
  have hnamed := (convertible_of_add hone h).named i (List.mem_of_getElem? hi)
  exact ⟨_, extra, hv, Vertex.id_withReferences _ _, hsource, says_iff hextra hnamed _⟩

theorem reference_of_add (hone : ∀ k ∈ a.preorder root, a.structuralCount k ≤ 1)
    (h : c.add a source root = .ok c') {place : Nat}
    (hi : (a.preorder root)[place]? = some i) :
    ∃ v, c'.graph.vertices[c.graph.vertices.size + place]? = some v ∧
      v.properties.get? "reference" = (a.references i).getLast?.map .text := by
  obtain ⟨extra, -, hextra, hv⟩ := exists_vertex_of_add hone h hi
  refine ⟨_, hv, ?_⟩
  rw [Vertex.get?_withReferences, if_pos (show PropertyName.reference = "reference" from rfl),
    get?_properties_reserved a i hextra (by decide), get?_properties_empty, if_neg (by decide),
    if_neg (by decide), if_neg (by decide), Option.or_none]

/-- **The properties of each vertex.** After any calls, a tree none of whose nodes has two
structural entries adds one vertex for each of its nodes in pre-order, behind those that were there.
The vertex has the next id and has exactly what is said of its node. Other extra attributes, here
and in the calls before, change none of the ids, edges and reserved properties, if the same calls
succeed. -/
theorem properties_of_process (calls : List Call) (a : Ast n) (source : AttributeSource n)
    (root : Fin n) (hone : ∀ i ∈ a.preorder root, a.structuralCount i ≤ 1)
    (hok : ((runCalls ∅ calls).1.process a source root).2 = .ok ()) :
    let c := (runCalls ∅ calls).1
    let c' := (c.process a source root).1
    (c.graph.vertices.toList <+: c'.graph.vertices.toList ∧
      c'.graph.vertices.size = c.graph.vertices.size + (a.preorder root).length) ∧
    (∀ place i, (a.preorder root)[place]? = some i →
      ∃ v extra, c'.graph.vertices[c.graph.vertices.size + place]? = some v ∧
        v.id = c.graph.vertices.size + place + 1 ∧ source i = .ok extra ∧
        ∀ name value, (name, value) ∈ v.properties.entries ↔ a.Says i extra name value) ∧
    ∀ (others : List Call) (other : AttributeSource n), let d := (runCalls ∅ others).1
      List.Forall₂ Call.AlikeButExtras calls others →
      List.Forall₂ (fun x y => x.StartsAnew ↔ y.StartsAnew) (runCalls ∅ calls).2
        (runCalls ∅ others).2 →
      (d.process a other root).2 = .ok () → c'.AlikeButExtras (d.process a other root).1 := by
  intro c c'
  have hadd : c.add a source root = .ok c' := add_of_process hok
  have hcoherent : Coherent c := coherent_empty.runCalls calls
  refine ⟨⟨(continues_of_add hone hadd).vertices, size_of_add hadd⟩, fun place i hi => ?_, ?_⟩
  · obtain ⟨v, extra, hv, hid, hsource, hcontents⟩ := contents_of_add hone hadd hi
    rw [hcoherent.nextId] at hid
    exact ⟨v, extra, hv, by omega, hsource, hcontents⟩
  · intro others other d hsame hanew hother
    exact ((AlikeButExtras.refl ∅).runCalls hsame hanew).add hadd (add_of_process hother)

/-- A file with a name in it that is its own type, and then of no type. -/
def retypedName : Ast 2 :=
  ⟨#v[⟨3, "File", "x", none, none, [(.structural, [node₁])]⟩,
    ⟨4, "Name", "x", some node₀, some "x", [(.type, [node₁]), (.type, [])]⟩]⟩

theorem preorder_retypedName : retypedName.preorder node₀ = [node₀, node₁] :=
  preorder_pair rfl rfl (by decide)

theorem process_retypedName {c : Conversion} {source : AttributeSource 2}
    (hfresh : ∀ i, ¬ c.handles.contains (retypedName.identity i) = true)
    (husable : ∀ i, ∃ extra, source i = .ok extra ∧
      ∀ e ∈ extra.entries, e.1 ∉ PropertyName.reserved) :
    (c.process retypedName source node₀).2 = .ok () := by
  have hcount : ∀ i, retypedName.structuralCount i ≤ 1 := by decide
  have hnamed : ∀ i, ∀ e ∈ retypedName.links i, e.1 = .type →
      ∀ target ∈ e.2, (retypedName.name? target).isSome := by decide
  have hkinds : ∀ i, ∀ e ∈ retypedName.links i, e.1 = .structural ∨ e.1 = .type := by decide
  refine (process_eq_ok_iff fun i _ => hcount i).2 ⟨?_, fun i _ => hfresh i,
    fun i _ => husable i, fun i _ targets he => hnamed i _ he rfl, ?_⟩
  · rw [preorder_retypedName]
    decide
  · exact fun i _ relation _ he hs ht => absurd (hkinds i _ he) (not_or.2 ⟨hs, ht⟩)

theorem properties_of_process_retypedName :
    let source : AttributeSource 2 := fun _ => .ok (Record.ofList [("language", "rust")])
    let before := (runCalls ∅ [.process (namedFile 1 2) .none node₀]).1
    let c := (before.process retypedName source node₀).1
    (∃ v, c.graph.vertices[3]? = some v ∧ v.id = 4 ∧
      ("type", .text "Name") ∈ v.properties.entries ∧
      ("parentType", .text "File") ∈ v.properties.entries ∧
      ("language", .text "rust") ∈ v.properties.entries ∧
      ("reference", .text "") ∈ v.properties.entries) ∧
    c.AlikeButExtras (before.process retypedName .none node₀).1 := by
  intro source before c
  obtain ⟨first, hadd, -, hknown⟩ := exists_add_behind (c := ∅) graphOf_namedFile.1 rfl
    fun _ _ => Bool.false_ne_true
  have hbefore : before = first :=
    congrArg Prod.fst (run_call_of_add (t := ⟨2, namedFile 1 2, .none, node₀⟩) hadd)
  have hsize : before.graph.vertices.size = 2 := by
    rw [hbefore, size_of_add hadd, preorder_namedFile (by decide)]
    rfl
  have hfresh : ∀ i, ¬ before.handles.contains (retypedName.identity i) = true := by
    have hother : ∀ i, retypedName.identity i ∉ [node₀, node₁].map (namedFile 1 2).identity := by
      decide
    intro i hi
    rw [hbefore, hknown, preorder_namedFile (by decide)] at hi
    exact hi.elim Bool.false_ne_true (hother i)
  have hcount : ∀ i, retypedName.structuralCount i ≤ 1 := by decide
  obtain ⟨-, hvertices, hinfluence⟩ := properties_of_process
    [.process (namedFile 1 2) .none node₀] retypedName source node₀ (fun i _ => hcount i)
    (process_retypedName hfresh fun _ => ⟨_, rfl, by decide⟩)
  obtain ⟨v, extra, hv, hid, hextra, hcontents⟩ :=
    hvertices 1 node₁ (by rw [preorder_retypedName]; rfl)
  obtain rfl : Record.ofList [("language", "rust")] = extra := Except.ok.inj hextra
  refine ⟨⟨v, ?_, ?_, ?_, ?_, ?_, ?_⟩, ?_⟩
  · rwa [hsize] at hv
  · rw [hid, hsize]
  · exact (hcontents _ _).2 .kind
  · exact (hcontents _ _).2 (.parent node₀ rfl)
  · exact (hcontents _ _).2 (.extra _ _ (by decide))
  · exact (hcontents _ _).2 (.reference [(.type, [node₁])] [] [] [] rfl (by simp) rfl)
  · exact hinfluence [.process (namedFile 1 2) .none node₀] .none (.cons (.process _ _ _ _) .nil)
      (.cons Iff.rfl .nil) (process_retypedName hfresh fun _ => ⟨∅, rfl, by decide⟩)

end Conversion

end CodeGraph

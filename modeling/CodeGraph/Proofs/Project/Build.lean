import CodeGraph.Proofs.Cst.WellFormed
import CodeGraph.Proofs.Project.Files

/-!
# The graph of many files

Files are taken up into one graph one after the other. The trees that were taken up have smaller
numbers than those that come (`Ready`), so that no two share an identity, also where a path is
listed twice. So each file adds its own graph behind the others (`exists_addFile`), and only a file
that does not parse ends the build. What is said of the graph of one file then holds of the whole,
file by file (`graphOfFiles_concatenates`).
-/

namespace CodeGraph

open Attempt

/-- How many vertices graphs have together. -/
def PropertyGraph.totalSize : List PropertyGraph → Nat
  | [] => 0
  | g :: rest => g.vertices.size + totalSize rest

variable {paths : List String} {path : String} {g : PropertyGraph}

theorem PropertyGraph.OfFile.tops (hg : g.OfFile path) :
    (g.vertices.toList.filter fun v => (v.properties.get? PropertyName.parentType).isNone).map
      (·.properties.get? "file") = [some (.text path)] := by
  obtain ⟨top, rest, hvertices, hparent, hfile, hrest⟩ := hg.root
  have hnone :
      rest.filter (fun v => (v.properties.get? PropertyName.parentType).isNone) = [] := by
    rw [List.filter_eq_nil_iff]
    intro v hv
    rw [Option.isNone_iff_eq_none, ← Option.not_isSome_iff_eq_none, not_not]
    exact (hrest v hv).1
  rw [hvertices, List.filter_cons_of_pos (by rw [hparent]; rfl), hnone, List.map_singleton, hfile]

theorem PropertyGraph.OfFile.others (hg : g.OfFile path) :
    ∀ v ∈ g.vertices.toList, (v.properties.get? "file").isSome ↔
      v.properties.get? PropertyName.parentType = none := by
  obtain ⟨top, rest, hvertices, hparent, hfile, hrest⟩ := hg.root
  intro v hv
  rw [hvertices] at hv
  rcases List.mem_cons.1 hv with rfl | hv
  · simp [hparent, hfile]
  · obtain ⟨hsome, hnone⟩ := hrest v hv
    rw [hnone, ← Option.not_isSome_iff_eq_none, hsome]
    simp

namespace GraphDocument

/-- Whether the vertices without a parent say in order which files there are, and no others do. -/
structure OfFiles (paths : List String) (d : GraphDocument) : Prop where
  tops : (d.vertices.filter fun v => (v.properties.get? PropertyName.parentType).isNone).map
    (·.properties.get? "file") = paths.map fun path => some (.text path)
  others : ∀ v ∈ d.vertices, (v.properties.get? "file").isSome ↔
    v.properties.get? PropertyName.parentType = none

variable {d : GraphDocument}

theorem ofFiles_empty : (ofGraph ∅).OfFiles [] :=
  ⟨rfl, fun _ hv => absurd hv List.not_mem_nil⟩

theorem OfFiles.append (h : d.OfFiles paths) (hg : g.OfFile path) :
    (d.append (.ofGraph g)).OfFiles (paths ++ [path]) := by
  -- Ids that are counted on leave the properties as they are.
  have hshift : ((g.vertices.toList.map (·.shift d.vertices.length)).filter
      fun v => (v.properties.get? PropertyName.parentType).isNone).map
        (·.properties.get? "file") = [some (.text path)] := by
    rw [List.filter_map, List.map_map]
    exact hg.tops
  constructor
  case tops =>
    change ((d.vertices ++ g.vertices.toList.map _).filter _).map _ = _
    rw [List.filter_append, List.map_append, h.tops, hshift, List.map_append, List.map_singleton]
  case others =>
    intro v hv
    rcases List.mem_append.1 hv with hv | hv
    · exact h.others v hv
    · obtain ⟨own, hown, rfl⟩ := List.mem_map.1 hv
      exact hg.others own hown

theorem OfFiles.foldl_append {graphs : List PropertyGraph} {done : List String}
    (hgraphs : List.Forall₂ (fun path (g : PropertyGraph) => g.OfFile path) paths graphs)
    (h : d.OfFiles done) :
    (graphs.foldl (fun d g => d.append (.ofGraph g)) d).OfFiles (done ++ paths) := by
  induction hgraphs generalizing d done with
  | nil =>
    rw [List.append_nil]
    exact h
  | cons hg _ ih =>
    rw [List.append_cons]
    exact ih (h.append hg)

theorem edges_ofGraph_empty : (ofGraph ∅).edges = [] := by
  change ((#[] : Array Arc).map (·.edge)).toList = []
  simp

theorem exists_of_mem_edges {graphs : List PropertyGraph} {e : Edge}
    (he : e ∈ (graphs.foldl (fun d g => d.append (.ofGraph g)) d).edges) :
    e ∈ d.edges ∨ ∃ done g later, graphs = done ++ g :: later ∧ ∃ own ∈ g.edges.toList,
      e = own.shift (d.vertices.length + PropertyGraph.totalSize done) := by
  induction graphs generalizing d with
  | nil => exact .inl he
  | cons g rest ih =>
    rcases ih he with he | ⟨done, other, later, rfl, own, hown, rfl⟩
    · rcases List.mem_append.1 he with he | he
      · exact .inl he
      · obtain ⟨own, hown, rfl⟩ := List.mem_map.1 he
        exact .inr ⟨[], g, rest, rfl, own, hown, rfl⟩
    · refine .inr ⟨g :: done, other, later, rfl, own, hown, ?_⟩
      have hlength :
          (d.append (.ofGraph g)).vertices.length = d.vertices.length + g.vertices.size := by
        simp [GraphDocument.append, ofGraph]
      rw [hlength, PropertyGraph.totalSize, Nat.add_assoc]

theorem ends_of_mem_edges {files : List PropertyGraph}
    (hfiles : List.Forall₂ (fun path (file : PropertyGraph) => file.OfFile path) paths files)
    {e : Edge}
    (he : e ∈ (files.foldl (fun d file => d.append (.ofGraph file)) (ofGraph ∅)).edges) :
    ∃ done file later, files = done ++ file :: later ∧
      let before := PropertyGraph.totalSize done
      (before < e.source ∧ e.source ≤ before + file.vertices.size) ∧
        before < e.target ∧ e.target ≤ before + file.vertices.size := by
  rcases exists_of_mem_edges he with hnone | ⟨done, file, later, rfl, own, hown, rfl⟩
  · rw [edges_ofGraph_empty] at hnone
    cases hnone
  · obtain ⟨path, -, hfile⟩ := Lists.exists_of_forall₂ hfiles (by simp : file ∈ _)
    have hends := hfile.ends own hown
    have hempty : (ofGraph ∅).vertices.length = 0 := rfl
    refine ⟨done, file, later, rfl, ?_⟩
    simp only [Edge.shift, hempty]
    omega

end GraphDocument

namespace FileTree

open Conversion

/-- The graph of files whose trees are numbered from `start` on. -/
def graphFrom (t : FileTree) (config : Config) (start : Nat) (paths : List String) :
    Except ProjectError PropertyGraph :=
  ((paths.zipIdx start).foldlM (t.addFile config) ∅).map (·.graph)

/-- A conversion that has taken up trees with numbers below a number. -/
structure Ready (c : Conversion) (number : Nat) : Prop where
  coherent : Coherent c
  fresh : ∀ id, c.handles.contains id = true → id.toNat / UInt32.size < number

theorem ready_empty (number : Nat) : Ready ∅ number :=
  ⟨coherent_empty, fun _ h => absurd h Bool.false_ne_true⟩

variable {t : FileTree} {config : Config} {s : SyntaxTree} {c : Conversion} {number start : Nat}
  {e : ProjectError}

/-! ## One file -/

theorem addTree_eq (hs : s.Sound) {root : Fin s.size} (hroot : root.val = 0) (c : Conversion) :
    addTree config path c s =
      (c.add s.ast (s.sourceAttributes config.spans) root).mapError (.conversion path) := by
  have hname : s.rootKey.bind s.nodeName? = some root := by
    rw [hs.root, Option.bind_some, SyntaxTree.nodeName?_eq_some_iff, hroot]
  rw [addTree, hname]

theorem addFile_eq_error (h : t.parseFile config path 0 = .error e) (c : Conversion)
    (number : Nat) : t.addFile config c (path, number) = .error e := by
  rw [addFile, bind_eq, parseFile_renumber _ _ _ 0, h]
  rfl

theorem parseFile_eq_ok (h : t.parseFile config path 0 = .ok s) (number : UInt32) :
    t.parseFile config path number = .ok (s.renumber number) := by
  rw [parseFile_renumber _ _ _ 0, h, ok_map]

theorem parseFile_eq_error_iff : t.parseFile config path 0 = .error e ↔
    ∀ number, t.parseFile config path number = .error e := by
  refine ⟨fun h number => ?_, fun h => h 0⟩
  rw [parseFile_renumber _ _ _ 0, h, error_map]

section file

variable {root : Fin s.size} (hrows : t.PreOrderedAt path)
  (h : t.parseFile config path 0 = .ok s) (hroot : root.val = 0)

include hrows h hroot

theorem addFile_eq (c : Conversion) (number : Nat) : t.addFile config c (path, number) =
    (c.add (s.renumber (.ofNat number)).ast
      ((s.renumber (.ofNat number)).sourceAttributes config.spans) root).mapError
        (.conversion path) := by
  have hparse := parseFile_eq_ok h (.ofNat number)
  have hsound : (s.renumber (.ofNat number)).Sound := (regular_of_parseFile hrows hparse).1.toSound
  rw [addFile, bind_eq, hparse, ok_bind]
  exact addTree_eq hsound hroot c

theorem exists_graphOf_renumber : ∃ file : PropertyGraph, file.OfFile path ∧
    ∀ number, graphOf (s.renumber number).ast ((s.renumber number).sourceAttributes config.spans)
      root = .ok file := by
  obtain ⟨hregular, -, hpath⟩ := regular_of_parseFile hrows h
  obtain ⟨c, hadd⟩ : ∃ c, (∅ : Conversion).add s.ast (s.sourceAttributes config.spans) root =
      .ok c := hregular.exists_add hroot fun i => Bool.false_ne_true
  have hgraph : graphOf s.ast (s.sourceAttributes config.spans) root = .ok c.graph :=
    map_eq_ok_iff.2 ⟨c, hadd, rfl⟩
  refine ⟨c.graph, hregular.toSound.ofFile hroot hpath hgraph, fun number => ?_⟩
  have hnodes : s.nodes = (s.renumber number).nodes := rfl
  exact (graphOf_cast_iff hnodes (sourceAttributes_cast hnodes rfl config.spans) root).2 hgraph

omit hroot

/-- A file that parses has a graph, whatever the number of its tree, and adds it to any conversion
that is ready for the number. -/
theorem exists_addFile : ∃ file : PropertyGraph, file.OfFile path ∧
    (∀ number, t.graphFrom config number [path] = .ok file) ∧
    ∀ {c : Conversion} {number : Nat}, Ready c number → number < UInt32.size →
      ∃ c', t.addFile config c (path, number) = .ok c' ∧ c.graph.Behind file c'.graph ∧
        Ready c' (number + 1) := by
  obtain ⟨hregular, -, -⟩ := regular_of_parseFile hrows h
  obtain ⟨root, hroot⟩ : ∃ root : Fin s.size, root.val = 0 := ⟨⟨0, hregular.nonempty⟩, rfl⟩
  obtain ⟨file, hfile, hgraphs⟩ := exists_graphOf_renumber hrows h hroot
  refine ⟨file, hfile, fun number => ?_, fun {c number} hc hlt => ?_⟩
  · obtain ⟨c, hadd, heq⟩ := map_eq_ok_iff.1 (hgraphs (.ofNat number))
    have hone : t.addFile config ∅ (path, number) = .ok c := by
      rw [addFile_eq hrows h hroot]
      exact mapError_eq_ok_iff.2 hadd
    rw [graphFrom, List.zipIdx_singleton, List.foldlM_cons, bind_eq, hone, ok_bind]
    exact congrArg Except.ok heq
  · have hupper : ∀ i, ((s.renumber (.ofNat number)).ast.identity i).toNat / UInt32.size =
        number := by
      intro i
      rw [SyntaxTree.identity_ast, SyntaxTree.toNat_identity_div]
      exact (UInt32.toNat_ofNat' ..).trans (Nat.mod_eq_of_lt hlt)
    obtain ⟨c', hadd, hbehind, hcached⟩ := exists_add_behind (hgraphs (.ofNat number))
      hc.coherent.nextId fun i _ hold => Nat.ne_of_lt (hc.fresh _ hold) (hupper i)
    refine ⟨c', ?_, hbehind, hc.coherent.add hadd, fun id hid => ?_⟩
    · rw [addFile_eq hrows h hroot]
      exact mapError_eq_ok_iff.2 hadd
    · rcases (hcached id).1 hid with hold | hnew
      · exact Nat.lt_succ_of_lt (hc.fresh id hold)
      · obtain ⟨i, -, rfl⟩ := List.mem_map.1 hnew
        rw [hupper]
        exact Nat.lt_succ_self number

end file

/-! ## All files -/

theorem foldlM_addFile_eq_error {done later : List String}
    (hrows : ∀ p ∈ done, t.PreOrderedAt p)
    (hdone : ∀ p ∈ done, ∃ s, t.parseFile config p 0 = .ok s)
    (h : t.parseFile config path 0 = .error e) (hc : Ready c start)
    (hcount : start + done.length ≤ UInt32.size) :
    ((done ++ path :: later).zipIdx start).foldlM (t.addFile config) c = .error e := by
  induction done generalizing c start with
  | nil =>
    rw [List.nil_append, List.zipIdx_cons, List.foldlM_cons, bind_eq, addFile_eq_error h]
    rfl
  | cons p rest ih =>
    rw [List.length_cons] at hcount
    obtain ⟨s, hs⟩ := hdone p List.mem_cons_self
    obtain ⟨file, -, -, hadd⟩ := exists_addFile (hrows p List.mem_cons_self) hs
    obtain ⟨c', hc', -, hready⟩ := hadd hc (by omega)
    rw [List.cons_append, List.zipIdx_cons, List.foldlM_cons, bind_eq, hc', ok_bind]
    exact ih (fun q hq => hrows q (List.mem_cons_of_mem _ hq))
      (fun q hq => hdone q (List.mem_cons_of_mem _ hq)) hready (by omega)

theorem exists_foldlM_addFile (hrows : ∀ p ∈ paths, t.PreOrderedAt p)
    (hparsed : ∀ p ∈ paths, ∃ s, t.parseFile config p 0 = .ok s) (hc : Ready c start)
    (hcount : start + paths.length ≤ UInt32.size) :
    ∃ c' files, (paths.zipIdx start).foldlM (t.addFile config) c = .ok c' ∧ Coherent c' ∧
      List.Forall₂ (fun path (file : PropertyGraph) => file.OfFile path ∧
        ∀ number, t.graphFrom config number [path] = .ok file) paths files ∧
      GraphDocument.ofGraph c'.graph =
        files.foldl (fun d file => d.append (.ofGraph file)) (.ofGraph c.graph) := by
  induction paths generalizing c start with
  | nil => exact ⟨c, [], rfl, hc.coherent, .nil, rfl⟩
  | cons p rest ih =>
    rw [List.length_cons] at hcount
    obtain ⟨s, hs⟩ := hparsed p List.mem_cons_self
    obtain ⟨file, hfile, hgraph, hadd⟩ := exists_addFile (hrows p List.mem_cons_self) hs
    obtain ⟨c₁, hc₁, hbehind, hready⟩ := hadd hc (by omega)
    obtain ⟨c', files, hc', hcoherent, hfiles, hdocument⟩ :=
      ih (fun q hq => hrows q (List.mem_cons_of_mem _ hq))
        (fun q hq => hparsed q (List.mem_cons_of_mem _ hq)) hready (by omega)
    refine ⟨c', file :: files, ?_, hcoherent, .cons ⟨hfile, hgraph⟩ hfiles, ?_⟩
    · rw [List.zipIdx_cons, List.foldlM_cons, bind_eq, hc₁, ok_bind]
      exact hc'
    · rw [hdocument, List.foldl_cons, hbehind.document]

/-- The error of the first file that does not parse. -/
def firstFailure? (t : FileTree) (config : Config) (paths : List String) : Option ProjectError :=
  paths.findSome? fun path => failure? (t.parseFile config path 0)

theorem firstFailure?_eq_some_iff : t.firstFailure? config paths = some e ↔
    ∃ done path later, paths = done ++ path :: later ∧
      (∀ p ∈ done, ∃ s, t.parseFile config p 0 = .ok s) ∧ t.parseFile config path 0 = .error e := by
  simp only [firstFailure?, List.findSome?_eq_some_iff, failure?_eq_some_iff,
    failure?_eq_none_iff]
  constructor
  · rintro ⟨done, path, later, hpaths, hpath, hdone⟩
    exact ⟨done, path, later, hpaths, hdone, hpath⟩
  · rintro ⟨done, path, later, hpaths, hdone, hpath⟩
    exact ⟨done, path, later, hpaths, hpath, hdone⟩

variable (hrows : ∀ p ∈ paths, t.PreOrderedAt p)
  (hcount : start + paths.length ≤ UInt32.size)

include hrows hcount

theorem graphFrom_eq_error (h : t.firstFailure? config paths = some e) :
    t.graphFrom config start paths = .error e := by
  obtain ⟨done, path, later, rfl, hdone, hpath⟩ := firstFailure?_eq_some_iff.1 h
  rw [List.length_append] at hcount
  rw [graphFrom, foldlM_addFile_eq_error (fun p hp => hrows p (List.mem_append_left _ hp)) hdone
    hpath (ready_empty start) (by omega), error_map]

theorem exists_graphFrom (h : t.firstFailure? config paths = none) :
    ∃ c' files, t.graphFrom config start paths = .ok c'.graph ∧ Coherent c' ∧
      List.Forall₂ (fun path (file : PropertyGraph) => file.OfFile path ∧
        ∀ number, t.graphFrom config number [path] = .ok file) paths files ∧
      GraphDocument.ofGraph c'.graph =
        files.foldl (fun d file => d.append (.ofGraph file)) (.ofGraph ∅) := by
  have hparsed : ∀ p ∈ paths, ∃ s, t.parseFile config p 0 = .ok s := fun p hp =>
    failure?_eq_none_iff.1 (List.findSome?_eq_none_iff.1 h p hp)
  obtain ⟨c', files, hc', hcoherent, hfiles, hdocument⟩ :=
    exists_foldlM_addFile hrows hparsed (ready_empty start) hcount
  refine ⟨c', files, ?_, hcoherent, hfiles, hdocument⟩
  rw [graphFrom, hc', ok_map]

theorem graphFrom_eq_error_iff :
    t.graphFrom config start paths = .error e ↔ t.firstFailure? config paths = some e := by
  refine ⟨fun h => ?_, graphFrom_eq_error hrows hcount⟩
  cases hfirst : t.firstFailure? config paths with
  | none =>
    obtain ⟨c, files, hc, -⟩ := exists_graphFrom hrows hcount hfirst
    rw [hc] at h
    cases h
  | some first =>
    rw [graphFrom_eq_error hrows hcount hfirst, Except.error.injEq] at h
    rw [h]

/-- It does not matter from which number on the trees are counted. -/
theorem document_graphFrom :
    (t.graphFrom config start paths).map GraphDocument.ofGraph =
      (t.graphOfFiles config paths).map GraphDocument.ofGraph := by
  have hzero : 0 + paths.length ≤ UInt32.size := by omega
  change _ = (t.graphFrom config 0 paths).map GraphDocument.ofGraph
  cases hfirst : t.firstFailure? config paths with
  | some e => rw [graphFrom_eq_error hrows hcount hfirst, graphFrom_eq_error hrows hzero hfirst]
  | none =>
    obtain ⟨c, files, hc, -, hfiles, hdocument⟩ := exists_graphFrom hrows hcount hfirst
    obtain ⟨c', files', hc', -, hfiles', hdocument'⟩ := exists_graphFrom hrows hzero hfirst
    -- A single file has the same graph under each number.
    have hsame : files = files' := by
      refine Relator.RightUnique.forall₂ ?_ hfiles hfiles'
      rintro path file file' ⟨-, hfile⟩ ⟨-, hfile'⟩
      exact Except.ok.inj ((hfile 0).symm.trans (hfile' 0))
    rw [hc, hc', ok_map, ok_map, hdocument, hdocument', hsame]

omit hrows hcount

/-- **The graph of many files.** Let what a parser makes of the files be in pre-order, and let there
be numbers for all trees. The build fails if and only if some file does not parse, with the
error of the first one. Otherwise its graph lists the vertices and edges of the graphs of the single
files in order, with ids that are counted on. So the ids are those from 1 on, each edge stays in one
file, and the vertices without a parent, one for each file, are those that say which file it is. It
does not matter from which number on the trees are counted. -/
theorem graphOfFiles_concatenates (t : FileTree) (config : Config) (paths : List String)
    (hrows : ∀ p ∈ paths, t.PreOrderedAt p)
    (hcount : paths.length ≤ UInt32.size) :
    (∀ e, t.graphOfFiles config paths = .error e ↔ ∃ done path later,
      paths = done ++ path :: later ∧ (∀ p ∈ done, ∃ s, t.parseFile config p 0 = .ok s) ∧
        ∀ number, t.parseFile config path number = .error e) ∧
    (∀ g, t.graphOfFiles config paths = .ok g → ∃ files : List PropertyGraph,
      List.Forall₂ (fun path file => t.graphOfFiles config [path] = .ok file ∧ file.OfFile path)
        paths files ∧
      let d := GraphDocument.ofGraph g
      d = files.foldl (fun d file => d.append (.ofGraph file)) (.ofGraph ∅) ∧
      d.vertices.map (·.id) = List.range' 1 d.vertices.length ∧
      (∀ e ∈ d.edges, ∃ done file later, files = done ++ file :: later ∧
        let before := PropertyGraph.totalSize done
        (before < e.source ∧ e.source ≤ before + file.vertices.size) ∧
          before < e.target ∧ e.target ≤ before + file.vertices.size) ∧
      d.OfFiles paths) ∧
    ∀ start, start + paths.length ≤ UInt32.size →
      (t.graphFrom config start paths).map GraphDocument.ofGraph =
        (t.graphOfFiles config paths).map GraphDocument.ofGraph := by
  have hzero : 0 + paths.length ≤ UInt32.size := by omega
  refine ⟨fun e => ?_, fun g h => ?_, fun start => document_graphFrom hrows⟩
  · refine (graphFrom_eq_error_iff hrows hzero).trans (firstFailure?_eq_some_iff.trans ?_)
    simp only [parseFile_eq_error_iff]
  · have hfirst : t.firstFailure? config paths = none := by
      rw [Option.eq_none_iff_forall_ne_some]
      intro e he
      have herror := h.symm.trans (graphFrom_eq_error hrows hzero he)
      cases herror
    obtain ⟨c, files, hc, hcoherent, hfiles, hdocument⟩ := exists_graphFrom hrows hzero hfirst
    obtain rfl : c.graph = g := Except.ok.inj (hc.symm.trans h)
    have hof := hfiles.imp fun path file hfile => hfile.1
    refine ⟨files, hfiles.imp fun path file hfile => ⟨hfile.2 0, hfile.1⟩, hdocument, ?_,
      fun e he => GraphDocument.ends_of_mem_edges hof (hdocument ▸ he), ?_⟩
    · exact hcoherent.ids.trans (by rw [GraphDocument.ofGraph, Array.length_toList])
    · rw [hdocument]
      exact GraphDocument.ofFiles_empty.foldl_append hof

/-- A project with one file, which holds a function that calls itself. -/
def recursiveFile : FileTree :=
  .folder [("a.py", .file ⟨"def f(): f()".toUTF8, Cst.recursiveRows⟩)]

theorem read_recursiveFile {f : SourceFile} (h : recursiveFile.read "a.py" = .ok f) :
    f.cst = Cst.recursiveRows := by
  have hread : recursiveFile.read "a.py" = .ok ⟨"def f(): f()".toUTF8, Cst.recursiveRows⟩ := by
    rfl
  rw [hread, Except.ok.injEq] at h
  rw [← h]

/-- A file that is listed twice is taken up twice. -/
theorem graphOfFiles_recursiveFile :
    (∀ p ∈ ["a.py", "a.py"], recursiveFile.PreOrderedAt p) ∧
    ["a.py", "a.py"].length ≤ UInt32.size ∧
    ∃ g, recursiveFile.graphOfFiles .standard ["a.py", "a.py"] = .ok g ∧
      (GraphDocument.ofGraph g).OfFiles ["a.py", "a.py"] := by
  have hrows : ∀ p ∈ ["a.py", "a.py"], recursiveFile.PreOrderedAt p := by
    intro p hp _ f _ _ hf _
    obtain rfl : p = "a.py" := by simpa using hp
    rw [read_recursiveFile hf]
    exact Cst.wellFormed_recursiveRows.preOrdered
  have hcount : ["a.py", "a.py"].length ≤ UInt32.size := by decide
  have hparse : ∃ s, recursiveFile.parseFile .standard "a.py" 0 = .ok s := by
    have hsize : (recursiveFile.parseFile .standard "a.py" 0).map (·.size) = .ok 5 := by
      decide +kernel
    obtain ⟨s, hs, -⟩ := map_eq_ok_iff.1 hsize
    exact ⟨s, hs⟩
  obtain ⟨hfails, hbuilds, -⟩ :=
    graphOfFiles_concatenates recursiveFile .standard ["a.py", "a.py"] hrows hcount
  refine ⟨hrows, hcount, ?_⟩
  cases hgraph : recursiveFile.graphOfFiles .standard ["a.py", "a.py"] with
  | error e =>
    obtain ⟨done, path, later, hpaths, -, herror⟩ := (hfails e).1 hgraph
    obtain ⟨s, hs⟩ := hparse
    have hmem : path ∈ ["a.py", "a.py"] := by simp [hpaths]
    obtain rfl : path = "a.py" := by simpa using hmem
    rw [herror] at hs
    cases hs
  | ok g =>
    obtain ⟨files, -, -, -, -, hofFiles⟩ := hbuilds g hgraph
    exact ⟨g, rfl, hofFiles⟩

end FileTree

end CodeGraph

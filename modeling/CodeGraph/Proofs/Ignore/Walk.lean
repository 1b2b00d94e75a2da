import CodeGraph.Ignore.Walk
import CodeGraph.Proofs.Files.Tree

/-!
# What a walk finds

A walk `Finds` a file by the names of the entries that lead to it, if it passes over none of them.
It lists each of these files once, at the path that the names lead to (`mem_walk_iff`,
`pairwise_walk`), and the same ones in whatever order the folders list their entries
(`Alike.mem_filesBelow_iff`).
-/

namespace CodeGraph.FileTree

variable {t t' : FileTree} {start path p : String} {folders : List RuleFolder}
  {names : List String}

/-- The folders whose rules apply within a folder, from the innermost on. -/
def rulesWithin (folders : List RuleFolder) (path : String) (t : FileTree) : List RuleFolder :=
  .within path (.ofEntries t.entries) :: folders

/-- Whether a walk comes to a file by these names and passes over none of their entries. -/
inductive Finds (start : String) : List RuleFolder → String → FileTree → List String → Prop
  | file (folders : List RuleFolder) (path : String) (f : SourceFile) :
      Finds start folders path (file f) []
  | entry {folders : List RuleFolder} {path : String} {t : FileTree} {name : String} {u : FileTree}
      {names : List String} (child : t.child? name = some u)
      (kept : skips (rulesWithin folders path t) start (Path.join path name) name (!u.isFile) =
        false)
      (rest : Finds start (rulesWithin folders path t) (Path.join path name) u names) :
      Finds start folders path t (name :: names)

theorem Finds.descend? (h : Finds start folders path t names) :
    ∃ f, t.descend? names = some (.file f) := by
  induction h with
  | file folders path f => exact ⟨f, rfl⟩
  | entry child _ _ ih =>
    rw [FileTree.descend?, child]
    exact ih

/-! ## The list -/

/-- What a walk lists for one entry of the folder `path`. -/
def walkEntry (start : String) (folders : List RuleFolder) (path : String)
    (e : String × FileTree) : List String :=
  if skips folders start (Path.join path e.1) e.1 (!e.2.isFile) then []
  else e.2.walk start folders (Path.join path e.1)

theorem mem_walkEntry_iff {e : String × FileTree} :
    p ∈ walkEntry start folders path e ↔
      skips folders start (Path.join path e.1) e.1 (!e.2.isFile) = false ∧
        p ∈ e.2.walk start folders (Path.join path e.1) := by
  rw [walkEntry]
  split <;> simp [*]

theorem walk_folder (start : String) (folders : List RuleFolder) (path : String)
    (entries : List (String × FileTree)) :
    (folder entries).walk start folders path =
      entries.flatMap (walkEntry start (rulesWithin folders path (folder entries)) path) := by
  have hentries : ∀ folders, ∀ entries : List (String × FileTree),
      walkEntries start folders path entries = entries.flatMap (walkEntry start folders path) := by
    intro folders entries
    induction entries with
    | nil => rfl
    | cons e rest ih => rw [walkEntries, ih, List.flatMap_cons, walkEntry]
  rw [walk, hentries]
  rfl

theorem mem_walk_iff (h : t.Wellnamed) :
    p ∈ t.walk start folders path ↔
      ∃ names, Finds start folders path t names ∧ names.foldl Path.join path = p := by
  induction h generalizing folders path with
  | file f =>
    rw [walk, List.mem_singleton]
    constructor
    · rintro rfl
      exact ⟨[], .file _ _ f, rfl⟩
    · rintro ⟨_, hfinds, rfl⟩
      cases hfinds with
      | file => rfl
      | entry child => cases child
  | folder _ nodup _ ih =>
    rw [walk_folder, List.mem_flatMap]
    constructor
    · rintro ⟨e, he, hp⟩
      obtain ⟨hkept, hp⟩ := mem_walkEntry_iff.1 hp
      obtain ⟨names, hfinds, rfl⟩ := (ih e he).1 hp
      exact ⟨e.1 :: names, .entry ((lookup_eq_some_iff nodup).2 he) hkept hfinds, rfl⟩
    · rintro ⟨_, hfinds, rfl⟩
      cases hfinds with
      | entry child kept rest =>
        have he := (lookup_eq_some_iff nodup).1 child
        exact ⟨_, he, mem_walkEntry_iff.2 ⟨kept, (ih _ he).2 ⟨_, rest, rfl⟩⟩⟩

theorem exists_parts_of_mem_walk (h : t.Wellnamed) (hp : p ∈ t.walk start folders path) :
    ∃ rest, Path.parts p = Path.parts path ++ rest := by
  obtain ⟨names, hfinds, rfl⟩ := (mem_walk_iff h).1 hp
  obtain ⟨f, hf⟩ := hfinds.descend?
  exact ⟨_, Path.parts_foldl_join (h.descend? hf).1 path⟩

/-- A walk lists nothing twice, however the paths are spelled. -/
theorem pairwise_walk (h : t.Wellnamed) :
    (t.walk start folders path).Pairwise fun a b => Path.parts a ≠ Path.parts b := by
  induction h generalizing folders path with
  | file f => exact List.pairwise_singleton _ _
  | @folder entries names nodup inner ih =>
    rw [walk_folder, List.pairwise_flatMap]
    constructor
    · intro e he
      rw [walkEntry]
      split
      · exact .nil
      · exact ih e he
    -- What two entries lead to differs in the part that is their name.
    · refine (List.pairwise_map.1 nodup).imp_of_mem fun he he' hne a ha b hb => ?_
      obtain ⟨rest, ha⟩ := exists_parts_of_mem_walk (inner _ he) (mem_walkEntry_iff.1 ha).2
      obtain ⟨rest', hb⟩ := exists_parts_of_mem_walk (inner _ he') (mem_walkEntry_iff.1 hb).2
      rw [ha, hb, Path.parts_join (names _ he), Path.parts_join (names _ he'), List.append_assoc,
        List.append_assoc]
      intro heq
      injection List.append_cancel_left heq with hname
      injection hname with hname
      exact hne hname

/-! ## Rules -/

namespace Alike

theorem ofEntries_eq (h : Alike t t') :
    FolderRules.ofEntries t.entries = FolderRules.ofEntries t'.entries := by
  have hfolder : Alike (folder t.entries) (folder t'.entries) := .of_child? rfl h.child?
  have hfile : ∀ names,
      FolderRules.inFile t.entries names = FolderRules.inFile t'.entries names := by
    intro names
    have hnames := hfolder.descend? names
    rw [FolderRules.inFile, FolderRules.inFile]
    generalize (folder t.entries).descend? names = u, (folder t'.entries).descend? names = u'
      at hnames ⊢
    cases hnames with
    | none => rfl
    | @some v v' hv =>
      have hfile := hv.file?_eq
      cases v <;> cases v' <;> cases hfile <;> rfl
  rw [FolderRules.ofEntries, FolderRules.ofEntries, hfile, hfile, hfile]

theorem rulesWithin_eq (h : Alike t t') (folders : List RuleFolder) (path : String) :
    rulesWithin folders path t = rulesWithin folders path t' := by
  rw [rulesWithin, rulesWithin, h.ofEntries_eq]

theorem foldersAround_eq (h : Alike t t') (outer names : List String) :
    t.foldersAround outer names = t'.foldersAround outer names := by
  induction outer generalizing names with
  | nil => rfl
  | cons name outer ih =>
    rw [foldersAround, foldersAround, (h.atPlace (some outer)).ofEntries_eq, ih]

theorem finds (h : Alike t t') (hfinds : Finds start folders path t names) :
    Finds start folders path t' names := by
  induction hfinds generalizing t' with
  | file folders path f =>
    obtain rfl := file?_eq_some_iff.1 h.file?_eq.symm
    exact .file folders path f
  | @entry folders path t name u names child kept _ ih =>
    have hname := h.child? name
    rw [child] at hname
    generalize hu' : t'.child? name = u' at hname
    cases hname with
    | some hu =>
      rw [h.rulesWithin_eq, hu.isFile_eq] at kept
      rw [h.rulesWithin_eq] at ih
      exact .entry hu' kept (ih hu)

end Alike

/-! ## A whole walk -/

theorem mem_filesBelow_iff (h : t.Wellnamed) {root : String} :
    p ∈ t.filesBelow root ↔ isStandardInput root = false ∧ ∃ place, t.locate root = .ok place ∧
      ∃ names, Finds root (t.foldersAround (place.getD []) []) root (t.atPlace place) names ∧
        names.foldl Path.join root = p := by
  rw [filesBelow]
  split
  · next hinput => simp [hinput]
  · next hinput =>
    rw [Bool.not_eq_true] at hinput
    cases hplace : t.locate root with
    | error fault => simp
    | ok place => simp [hinput, mem_walk_iff (h.atPlace place)]

theorem pairwise_filesBelow (h : t.Wellnamed) (root : String) :
    (t.filesBelow root).Pairwise fun a b => Path.parts a ≠ Path.parts b := by
  rw [filesBelow]
  split
  · exact .nil
  · cases t.locate root with
    | error fault => exact .nil
    | ok place => exact pairwise_walk (h.atPlace place)

theorem Alike.mem_filesBelow_iff (h : Alike t t') (ht : t.Wellnamed) (ht' : t'.Wellnamed)
    {root : String} : p ∈ t.filesBelow root ↔ p ∈ t'.filesBelow root := by
  have hkept : ∀ {u u' : FileTree}, Alike u u' → u.Wellnamed → u'.Wellnamed →
      p ∈ u.filesBelow root → p ∈ u'.filesBelow root := by
    intro u u' h hu hu' hp
    obtain ⟨hinput, place, hplace, names, hfinds, hjoin⟩ := (FileTree.mem_filesBelow_iff hu).1 hp
    rw [h.locate_eq] at hplace
    rw [h.foldersAround_eq] at hfinds
    exact (FileTree.mem_filesBelow_iff hu').2
      ⟨hinput, place, hplace, names, (h.atPlace place).finds hfinds, hjoin⟩
  exact ⟨hkept h ht ht', hkept h.symm ht' ht⟩

end CodeGraph.FileTree

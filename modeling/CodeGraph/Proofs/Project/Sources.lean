import CodeGraph.Project.Sources
import CodeGraph.Proofs.Ignore.Walk

/-!
# The sources below a folder

The sources are listed by ascending path, each once, so they are determined by which files they are:
the order in which folders list their entries leaves no trace, and more patterns take away the files
that they match and no others.
-/

namespace CodeGraph

open Attempt

namespace Glob

theorem ofTexts?_append {style : Style} {texts further : List String} {globs more : List Glob}
    (hglobs : ofTexts? style texts = .ok globs) (hmore : ofTexts? style further = .ok more) :
    ofTexts? style (texts ++ further) = .ok (globs ++ more) := by
  rw [ofTexts?] at hglobs hmore ⊢
  rw [List.mapM_append, hglobs, hmore]
  rfl

end Glob

namespace Language

theorem mem_all (l : Language) : l ∈ all := by cases l <;> decide

theorem isSome_ofPath?_iff {path : String} :
    (ofPath? path).isSome ↔ ∃ l : Language, ∃ extension ∈ l.extensions,
      Path.extension? path = some extension := by
  rw [ofPath?]
  cases Path.extension? path with
  | none => simp
  | some extension => simp [ofExtension?, mem_all]

end Language

namespace FileTree

variable {t t' : FileTree} {globs more : List Glob} {root path : String} {config : Config}

theorem isFileAt_eq_false (h : t.isFolderAt root = true) : t.isFileAt root = false := by
  rw [isFolderAt] at h
  rw [isFileAt]
  split at h
  · next hfind => rw [hfind]
  · cases h

theorem isExcluded_eq_false_iff :
    isExcluded globs root path = false ↔
      ∀ g ∈ globs, g.isMatch (Path.relativeTo path root) = false := by
  rw [isExcluded, List.any_eq_false]
  simp only [Bool.not_eq_true]

theorem mem_sourcesBelow_iff :
    path ∈ t.sourcesBelow globs root ↔ path ∈ t.filesBelow root ∧
      (Language.ofPath? path).isSome ∧ isExcluded globs root path = false := by
  rw [sourcesBelow, List.mem_mergeSort, List.mem_filter, List.mem_filter, Bool.not_eq_true',
    and_assoc]

theorem pairwise_sourcesBelow (h : t.Wellnamed) (globs : List Glob) (root : String) :
    (t.sourcesBelow globs root).Pairwise Path.Lt :=
  Path.pairwise_mergeSort (((pairwise_filesBelow h root).filter _).filter _)

theorem sourcesBelow_append (h : t.Wellnamed) (globs more : List Glob) (root : String) :
    t.sourcesBelow (globs ++ more) root =
      (t.sourcesBelow globs root).filter fun path => !isExcluded more root path := by
  refine Path.eq_of_pairwise_lt (pairwise_sourcesBelow h _ root)
    ((pairwise_sourcesBelow h globs root).filter _) fun path => ?_
  rw [List.mem_filter, mem_sourcesBelow_iff, mem_sourcesBelow_iff, Bool.not_eq_true', and_assoc,
    and_assoc]
  refine and_congr_right fun _ => and_congr_right fun _ => ?_
  rw [isExcluded, List.any_append, Bool.or_eq_false_iff]
  rfl

theorem Alike.sourcesBelow_eq (h : Alike t t') (ht : t.Wellnamed) (ht' : t'.Wellnamed)
    (globs : List Glob) (root : String) :
    t'.sourcesBelow globs root = t.sourcesBelow globs root := by
  refine Path.eq_of_pairwise_lt (pairwise_sourcesBelow ht' globs root)
    (pairwise_sourcesBelow ht globs root) fun path => ?_
  rw [mem_sourcesBelow_iff, mem_sourcesBelow_iff, h.mem_filesBelow_iff ht ht']

theorem sources_eq_ok (hroot : t.isFileAt root = false)
    (hglobs : Glob.ofTexts? Glob.standard config.exclude = .ok globs) :
    t.sources config root = .ok (t.sourcesBelow globs root) := by
  rw [sources, if_neg (Bool.eq_false_iff.1 hroot), hglobs]
  rfl

/-- **The sources below a folder** are listed by strictly ascending path. They are the files that a
walk finds, that have a supported extension and that no pattern matches as seen from the folder. A
tree that lists its entries in another order has the same list, and further patterns take from it
the paths that one of them matches. -/
theorem sources_of_folder (h : t.Wellnamed) (hroot : t.isFolderAt root = true)
    (hglobs : Glob.ofTexts? Glob.standard config.exclude = .ok globs) :
    ∃ list, t.sources config root = .ok list ∧ list.Pairwise Path.Lt ∧
      (∀ path, path ∈ list ↔ path ∈ t.filesBelow root ∧
        (∃ l : Language, ∃ extension ∈ l.extensions, Path.extension? path = some extension) ∧
        ∀ g ∈ globs, g.isMatch (Path.relativeTo path root) = false) ∧
      (∀ path ∈ list, ∃ place names f, t.locate root = .ok place ∧
        (t.atPlace place).descend? names = some (.file f) ∧ names.foldl Path.join root = path ∧
        Path.relativeTo path root = "/".intercalate names) ∧
      (∀ t', t'.Wellnamed → Alike t t' → t'.sources config root = .ok list) ∧
      ∀ further more, Glob.ofTexts? Glob.standard further = .ok more →
        t.sources { config with exclude := config.exclude ++ further } root =
          .ok (list.filter fun path =>
            !more.any fun g => g.isMatch (Path.relativeTo path root)) := by
  have hfile := isFileAt_eq_false hroot
  refine ⟨_, sources_eq_ok hfile hglobs, pairwise_sourcesBelow h globs root, fun path => ?_,
    fun path hpath => ?_, fun t' ht' halike => ?_, fun further more hmore => ?_⟩
  · rw [mem_sourcesBelow_iff, Language.isSome_ofPath?_iff, isExcluded_eq_false_iff]
  · obtain ⟨-, place, hplace, names, hfinds, rfl⟩ :=
      (mem_filesBelow_iff h).1 (mem_sourcesBelow_iff.1 hpath).1
    obtain ⟨f, hf⟩ := hfinds.descend?
    have hnames := ((h.atPlace place).descend? hf).1
    exact ⟨place, names, f, hplace, hf, rfl, Path.relativeTo_foldl_join hnames root⟩
  · have hfile' : t'.isFileAt root = false := by rw [← halike.isFileAt_eq, hfile]
    rw [sources_eq_ok hfile' hglobs, halike.sourcesBelow_eq h ht']
  · rw [sources_eq_ok hfile (Glob.ofTexts?_append hglobs hmore), sourcesBelow_append h]
    rfl

/-- A folder beside a file whose name begins like its own. -/
def smallProject : FileTree :=
  folder [("a.py", file default), ("notes.md", file default),
    ("a", folder [("c.py", file default), ("b.rs", file default)])]

/-- The same project as another file system lists it. -/
def smallProjectRelisted : FileTree :=
  folder [("a", folder [("b.rs", file default), ("c.py", file default)]),
    ("notes.md", file default), ("a.py", file default)]

theorem wellnamed_smallProject : smallProject.Wellnamed := by
  have hinner : (folder [("c.py", file default), ("b.rs", file default)]).Wellnamed :=
    .folder (by decide) (by decide) (by simp [Wellnamed.file])
  exact .folder (by decide) (by decide) (by simp [Wellnamed.file, hinner])

theorem wellnamed_smallProjectRelisted : smallProjectRelisted.Wellnamed := by
  have hinner : (folder [("b.rs", file default), ("c.py", file default)]).Wellnamed :=
    .folder (by decide) (by decide) (by simp [Wellnamed.file])
  exact .folder (by decide) (by decide) (by simp [Wellnamed.file, hinner])

theorem alike_smallProject : Alike smallProject smallProjectRelisted := by
  have hinner : Alike (folder [("c.py", file default), ("b.rs", file default)])
      (folder [("b.rs", file default), ("c.py", file default)]) :=
    alike_folder_of_perm (by decide) (.swap _ _ _)
      (.cons ⟨rfl, .refl _⟩ (.cons ⟨rfl, .refl _⟩ .nil))
  exact alike_folder_of_perm (by decide) (List.reverse_perm _).symm
    (.cons ⟨rfl, hinner⟩ (.cons ⟨rfl, .refl _⟩ (.cons ⟨rfl, .refl _⟩ .nil)))

theorem sourcesBelow_smallProject :
    smallProject.sourcesBelow [] "." = ["./a/b.rs", "./a/c.py", "./a.py"] := by
  have hfound : (((smallProject.filesBelow ".").filter fun path => (Language.ofPath? path).isSome)
      |>.filter fun path => !isExcluded [] "." path) = ["./a.py", "./a/c.py", "./a/b.rs"] := by
    decide +kernel
  refine Path.eq_of_pairwise_lt (pairwise_sourcesBelow wellnamed_smallProject [] ".")
    (by decide +kernel) fun path => ?_
  rw [sourcesBelow, hfound, List.mem_mergeSort]
  exact List.mem_reverse.symm

theorem sources_of_folder_smallProject :
    smallProject.sources .standard "." = .ok ["./a/b.rs", "./a/c.py", "./a.py"] ∧
      smallProjectRelisted.sources .standard "." = .ok ["./a/b.rs", "./a/c.py", "./a.py"] ∧
      smallProject.sources { Config.standard with exclude := ["**/c.*"] } "." =
        .ok ["./a/b.rs", "./a.py"] := by
  have hroot : smallProject.isFolderAt "." = true := by decide +kernel
  have hglobs : Glob.ofTexts? Glob.standard Config.standard.exclude = .ok [] := rfl
  have hkept : ((Glob.ofTexts? Glob.standard ["**/c.*"]).map fun more =>
      ["./a/b.rs", "./a/c.py", "./a.py"].filter fun path =>
        !more.any fun g => g.isMatch (Path.relativeTo path ".")).toOption =
      some ["./a/b.rs", "./a.py"] := by decide +kernel
  obtain ⟨list, hlist, -, -, -, halike, hfurther⟩ :=
    sources_of_folder wellnamed_smallProject hroot hglobs
  obtain rfl : ["./a/b.rs", "./a/c.py", "./a.py"] = list := by
    rw [sources_eq_ok (isFileAt_eq_false hroot) hglobs, sourcesBelow_smallProject] at hlist
    exact Except.ok.inj hlist
  refine ⟨hlist, halike _ wellnamed_smallProjectRelisted alike_smallProject, ?_⟩
  cases hmore : Glob.ofTexts? Glob.standard ["**/c.*"] with
  | error fault =>
    rw [hmore] at hkept
    cases hkept
  | ok more =>
    rw [hmore] at hkept
    rw [← Option.some.inj hkept]
    exact hfurther _ more hmore

end FileTree

end CodeGraph

import CodeGraph.Files.Tree
import CodeGraph.Proofs.Attempt
import CodeGraph.Proofs.Files.Path

/-!
# Trees of files up to the order of entries

A file system may list the entries of a folder in any order. Two trees are `Alike` if the same names
lead to the same files in both, and to folders in both: they are one tree with its entries in some
order (`alike_folder_of_perm`). What one finds by following a path is then the same
(`Alike.locate_eq`).
-/

namespace CodeGraph.FileTree

/-- Whether the entries of each folder have names, and each its own. -/
inductive Wellnamed : FileTree → Prop
  | file (f : SourceFile) : Wellnamed (file f)
  | folder {entries : List (String × FileTree)} (names : ∀ e ∈ entries, Path.IsName e.1)
      (nodup : (entries.map Prod.fst).Nodup) (inner : ∀ e ∈ entries, Wellnamed e.2) :
      Wellnamed (folder entries)

/-- The file that a tree is, if it is one. -/
def file? : FileTree → Option SourceFile
  | file f => some f
  | folder _ => none

/-- Whether two trees are the same but for the order of their entries. -/
def Alike (t t' : FileTree) : Prop :=
  ∀ names, (t.descend? names).map file? = (t'.descend? names).map file?

variable {t t' : FileTree}

theorem isFile_eq (t : FileTree) : t.isFile = t.file?.isSome := by cases t <;> rfl

theorem file?_eq_some_iff {f : SourceFile} : t.file? = some f ↔ t = file f := by
  cases t <;> simp [file?]

theorem descend?_append (t : FileTree) (names more : List String) :
    t.descend? (names ++ more) = (t.descend? names).bind (·.descend? more) := by
  induction names generalizing t with
  | nil => rfl
  | cons name names ih =>
    rw [List.cons_append, descend?, descend?, Option.bind_assoc]
    exact Option.bind_congr fun u _ => ih u

theorem descend?_singleton (t : FileTree) (name : String) : t.descend? [name] = t.child? name := by
  change (t.child? name).bind some = _
  exact Option.bind_fun_some _

/-! ## Entries -/

theorem lookup_eq_some_iff {entries : List (String × FileTree)}
    (h : (entries.map Prod.fst).Nodup) {name : String} {u : FileTree} :
    entries.lookup name = some u ↔ (name, u) ∈ entries := by
  induction entries with
  | nil => simp
  | cons e rest ih =>
    rw [List.map_cons, List.nodup_cons] at h
    rw [List.lookup_cons, List.mem_cons]
    by_cases hname : name = e.1
    · subst hname
      have hrest : (e.1, u) ∉ rest := fun hu => h.1 (List.mem_map.2 ⟨_, hu, rfl⟩)
      simp only [beq_self_eq_true, hrest, or_false, Option.some.injEq]
      exact ⟨fun hu => by rw [← hu], fun hu => by rw [← hu]⟩
    · rw [beq_eq_false_iff_ne.2 hname, ih h.2]
      exact ⟨.inr, fun hu => hu.resolve_left fun he => hname (congrArg Prod.fst he)⟩

theorem lookup_eq_of_perm {entries entries' : List (String × FileTree)}
    (hnodup : (entries.map Prod.fst).Nodup) (hperm : entries.Perm entries') (name : String) :
    entries.lookup name = entries'.lookup name := by
  have hnodup' : (entries'.map Prod.fst).Nodup := (hperm.map Prod.fst).nodup_iff.1 hnodup
  refine Option.ext fun u => ?_
  rw [lookup_eq_some_iff hnodup, lookup_eq_some_iff hnodup', hperm.mem_iff]

namespace Wellnamed

theorem nodup_entries (h : t.Wellnamed) : (t.entries.map Prod.fst).Nodup := by
  cases h with
  | file f => exact List.nodup_nil
  | folder names nodup inner => exact nodup

theorem mem_entries (h : t.Wellnamed) {e : String × FileTree} (he : e ∈ t.entries) :
    Path.IsName e.1 ∧ e.2.Wellnamed := by
  cases h with
  | file f => cases he
  | folder names nodup inner => exact ⟨names e he, inner e he⟩

theorem child?_eq_some_iff (h : t.Wellnamed) {name : String} {u : FileTree} :
    t.child? name = some u ↔ (name, u) ∈ t.entries := lookup_eq_some_iff h.nodup_entries

theorem descend? (h : t.Wellnamed) {names : List String} {u : FileTree}
    (hu : t.descend? names = some u) : (∀ name ∈ names, Path.IsName name) ∧ u.Wellnamed := by
  induction names generalizing t with
  | nil =>
    cases hu
    exact ⟨List.forall_mem_nil _, h⟩
  | cons name names ih =>
    obtain ⟨v, hv, hu⟩ := Option.bind_eq_some_iff.1 hu
    obtain ⟨hname, hinner⟩ := h.mem_entries (h.child?_eq_some_iff.1 hv)
    obtain ⟨hnames, hwell⟩ := ih hinner hu
    exact ⟨List.forall_mem_cons.2 ⟨hname, hnames⟩, hwell⟩

theorem atPlace (h : t.Wellnamed) (place : Place) : (t.atPlace place).Wellnamed := by
  have hempty : empty.Wellnamed :=
    .folder (List.forall_mem_nil _) List.nodup_nil (List.forall_mem_nil _)
  cases place with
  | none => exact hempty
  | some names =>
    rw [FileTree.atPlace]
    cases hu : t.descend? names.reverse with
    | none => exact hempty
    | some u => exact (h.descend? hu).2

end Wellnamed

namespace Alike

theorem refl (t : FileTree) : Alike t t := fun _ => rfl

theorem symm (h : Alike t t') : Alike t' t := fun names => (h names).symm

theorem file?_eq (h : Alike t t') : t.file? = t'.file? := Option.some.inj (h [])

theorem isFile_eq (h : Alike t t') : t.isFile = t'.isFile := by
  rw [t.isFile_eq, t'.isFile_eq, h.file?_eq]

theorem descend? (h : Alike t t') (names : List String) :
    Option.Rel Alike (t.descend? names) (t'.descend? names) := by
  have hnames := h names
  cases hu : t.descend? names with
  | none =>
    rw [hu, Option.map_none, eq_comm, Option.map_eq_none_iff] at hnames
    rw [hnames]
    exact .none
  | some u =>
    cases hu' : t'.descend? names with
    | none => simp [hu, hu'] at hnames
    | some u' =>
      refine .some fun more => ?_
      have hmore := h (names ++ more)
      rwa [descend?_append, descend?_append, hu, hu'] at hmore

theorem child? (h : Alike t t') (name : String) :
    Option.Rel Alike (t.child? name) (t'.child? name) := by
  have hchild := h.descend? [name]
  rwa [descend?_singleton, descend?_singleton] at hchild

theorem of_child? (hfile : t.file? = t'.file?)
    (hchild : ∀ name, Option.Rel Alike (t.child? name) (t'.child? name)) : Alike t t' := by
  rintro (- | ⟨name, names⟩)
  · exact congrArg some hfile
  · have hname := hchild name
    rw [FileTree.descend?, FileTree.descend?]
    generalize t.child? name = u, t'.child? name = u' at hname ⊢
    cases hname with
    | none => rfl
    | some h => exact h names

theorem atPlace (h : Alike t t') (place : Place) : Alike (t.atPlace place) (t'.atPlace place) := by
  cases place with
  | none => exact refl _
  | some names =>
    have hnames := h.descend? names.reverse
    rw [FileTree.atPlace, FileTree.atPlace]
    generalize t.descend? names.reverse = u, t'.descend? names.reverse = u' at hnames ⊢
    cases hnames with
    | none => exact refl _
    | some h => exact h

theorem follow_eq (h : Alike t t') : t.follow = t'.follow := by
  funext place piece
  have hplace := h.atPlace place
  have hpiece := hplace.child? piece
  unfold follow
  rw [hplace.isFile_eq]
  generalize (t.atPlace place).child? piece = u, (t'.atPlace place).child? piece = u' at hpiece ⊢
  cases hpiece <;> cases place <;> rfl

theorem locate_eq (h : Alike t t') (path : String) : t.locate path = t'.locate path := by
  rw [locate, locate, followAll, followAll, h.follow_eq]

theorem isFileAt_eq (h : Alike t t') (path : String) : t.isFileAt path = t'.isFileAt path := by
  rw [isFileAt, isFileAt, find, find, h.locate_eq]
  cases t'.locate path with
  | error fault => rfl
  | ok place =>
    have hfile := (h.atPlace place).isFile_eq
    rw [Attempt.ok_map, Attempt.ok_map]
    generalize t.atPlace place = u, t'.atPlace place = u' at hfile ⊢
    cases u <;> cases u' <;> first | rfl | cases hfile

end Alike

theorem alike_folder_of_perm {entries listed entries' : List (String × FileTree)}
    (hnodup : (entries.map Prod.fst).Nodup) (hperm : entries.Perm listed)
    (hinner : List.Forall₂ (fun e e' => e.1 = e'.1 ∧ Alike e.2 e'.2) listed entries') :
    Alike (folder entries) (folder entries') := by
  refine .of_child? rfl fun name => ?_
  have hlookup : (folder entries).child? name = listed.lookup name :=
    lookup_eq_of_perm hnodup hperm name
  rw [hlookup, FileTree.child?, FileTree.entries]
  clear hnodup hperm hlookup
  induction hinner with
  | nil => exact .none
  | @cons e e' _ _ he _ ih =>
    rw [List.lookup_cons, List.lookup_cons, he.1]
    split
    · exact .some he.2
    · exact ih

end CodeGraph.FileTree

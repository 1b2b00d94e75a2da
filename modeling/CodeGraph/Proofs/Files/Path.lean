import CodeGraph.Files.Path
import Mathlib.Data.List.Basic

/-!
# Paths part by part

The order of paths is the lexicographic one of their parts (`partsLe_iff`), and `le` is a total
order up to how a path is spelled. To append the name of an entry is to append one part
(`parts_join`), so the path that names lead to from a base is seen from there as these names
(`relativeTo_foldl_join`).
-/

namespace CodeGraph.Path

/-- Whether a text can be the name of an entry of a folder. -/
structure IsName (s : String) : Prop where
  nonempty : s ≠ ""
  noSlash : '/' ∉ s.toList
  notCurrent : s ≠ "."
  notParent : s ≠ ".."

instance (s : String) : Decidable (IsName s) :=
  decidable_of_iff (s ≠ "" ∧ '/' ∉ s.toList ∧ s ≠ "." ∧ s ≠ "..")
    ⟨fun ⟨h₁, h₂, h₃, h₄⟩ => ⟨h₁, h₂, h₃, h₄⟩, fun h => ⟨h.1, h.2, h.3, h.4⟩⟩

/-! ## Order -/

namespace Part

variable {a b c : Part}

/-- Whether a part comes before another. -/
def Lt (a b : Part) : Prop := a.le b = true ∧ a ≠ b

theorem le_total (a b : Part) : a.le b = true ∨ b.le a = true := by
  cases a with
  | name s =>
    cases b with
    | name t =>
      exact (String.le_total s t).imp decide_eq_true decide_eq_true
    | _ => exact .inr rfl
  | _ => cases b <;> first | exact .inl rfl | exact .inr rfl

theorem le_trans (hab : a.le b = true) (hbc : b.le c = true) : a.le c = true := by
  cases a <;> cases b <;> cases c <;> try trivial
  exact decide_eq_true (String.le_trans (of_decide_eq_true hab) (of_decide_eq_true hbc))

theorem le_antisymm (hab : a.le b = true) (hba : b.le a = true) : a = b := by
  cases a <;> cases b <;> try trivial
  exact congrArg name (String.le_antisymm (of_decide_eq_true hab) (of_decide_eq_true hba))

end Part

/-- Whether a path comes before another: its parts do in lexicographic order. -/
def Lt (a b : String) : Prop := List.Lex Part.Lt (parts a) (parts b)

theorem partsLe_cons (a b : Part) (as bs : List Part) :
    partsLe (a :: as) (b :: bs) = true ↔ a.Lt b ∨ (a = b ∧ partsLe as bs = true) := by
  rw [partsLe]
  split
  · next heq =>
    subst heq
    simp [Part.Lt]
  · next hne => simp [Part.Lt, hne]

theorem partsLe_iff {as bs : List Part} :
    partsLe as bs = true ↔ List.Lex Part.Lt as bs ∨ as = bs := by
  induction as generalizing bs with
  | nil => cases bs <;> simp [partsLe]
  | cons a as ih =>
    cases bs with
    | nil => simp [partsLe]
    | cons b bs =>
      rw [partsLe_cons, ih, List.cons_lex_cons_iff, List.cons.injEq, and_or_left, or_assoc]

theorem partsLe_total (as bs : List Part) : partsLe as bs = true ∨ partsLe bs as = true := by
  induction as generalizing bs with
  | nil => exact .inl rfl
  | cons a as ih =>
    cases bs with
    | nil => exact .inr rfl
    | cons b bs =>
      rw [partsLe_cons, partsLe_cons]
      by_cases heq : a = b
      · subst heq
        exact (ih bs).imp (fun h => .inr ⟨rfl, h⟩) fun h => .inr ⟨rfl, h⟩
      · exact (a.le_total b).imp (fun h => .inl ⟨h, heq⟩) fun h => .inl ⟨h, Ne.symm heq⟩

theorem partsLe_trans {as bs cs : List Part} (hab : partsLe as bs = true)
    (hbc : partsLe bs cs = true) : partsLe as cs = true := by
  induction as generalizing bs cs with
  | nil => rfl
  | cons a as ih =>
    cases bs with
    | nil => cases hab
    | cons b bs =>
      cases cs with
      | nil => cases hbc
      | cons c cs =>
        rw [partsLe_cons] at hab hbc ⊢
        rcases hab with hab | ⟨rfl, hab⟩
        · rcases hbc with hbc | ⟨rfl, hbc⟩
          · refine .inl ⟨Part.le_trans hab.1 hbc.1, ?_⟩
            rintro rfl
            exact hab.2 (Part.le_antisymm hab.1 hbc.1)
          · exact .inl hab
        · exact hbc.imp id fun h => ⟨h.1, ih hab h.2⟩

theorem partsLe_antisymm {as bs : List Part} (hab : partsLe as bs = true)
    (hba : partsLe bs as = true) : as = bs := by
  induction as generalizing bs with
  | nil =>
    cases bs with
    | nil => rfl
    | cons b bs => cases hba
  | cons a as ih =>
    cases bs with
    | nil => cases hab
    | cons b bs =>
      rw [partsLe_cons] at hab hba
      rcases hab with hab | ⟨rfl, hab⟩
      · rcases hba with hba | ⟨rfl, -⟩
        · exact absurd (Part.le_antisymm hab.1 hba.1) hab.2
        · exact absurd rfl hab.2
      · rcases hba with hba | ⟨-, hba⟩
        · exact absurd rfl hba.2
        · rw [ih hab hba]

theorem not_lex_self (as : List Part) : ¬ List.Lex Part.Lt as as := by
  induction as with
  | nil => exact List.not_lex_nil
  | cons a as ih =>
    rw [List.cons_lex_cons_iff]
    rintro (h | ⟨-, h⟩)
    · exact h.2 rfl
    · exact ih h

theorem lt_iff {a b : String} : Lt a b ↔ le a b = true ∧ parts a ≠ parts b := by
  rw [le, partsLe_iff]
  constructor
  · intro h
    refine ⟨.inl h, fun heq => not_lex_self (parts b) ?_⟩
    rwa [Lt, heq] at h
  · rintro ⟨h | heq, hne⟩
    · exact h
    · exact absurd heq hne

instance (a b : String) : Decidable (Lt a b) := decidable_of_iff _ lt_iff.symm

theorem eq_of_pairwise_lt {xs ys : List String} (hxs : xs.Pairwise Lt) (hys : ys.Pairwise Lt)
    (hmem : ∀ path, path ∈ xs ↔ path ∈ ys) : xs = ys := by
  have hne : ∀ {a b}, Lt a b → a ≠ b := by
    rintro a b h rfl
    exact (lt_iff.1 h).2 rfl
  have hperm : xs.Perm ys :=
    (List.perm_ext_iff_of_nodup (hxs.imp hne) (hys.imp hne)).2 hmem
  refine hperm.eq_of_pairwise (fun a b _ _ hab hba => ?_) hxs hys
  have hab := lt_iff.1 hab
  exact absurd (partsLe_antisymm hab.1 (lt_iff.1 hba).1) hab.2

theorem pairwise_mergeSort {xs : List String} (h : xs.Pairwise fun a b => parts a ≠ parts b) :
    (xs.mergeSort le).Pairwise Lt := by
  have htrans : ∀ a b c, le a b = true → le b c = true → le a c = true := fun a b c hab hbc =>
    partsLe_trans hab hbc
  have htotal : ∀ a b, (le a b || le b a) = true := fun a b =>
    Bool.or_eq_true_iff.2 (partsLe_total (parts a) (parts b))
  have hsorted := List.pairwise_mergeSort htrans htotal xs
  have hne : (xs.mergeSort le).Pairwise fun a b => parts a ≠ parts b :=
    (List.mergeSort_perm xs le).symm.pairwise h fun hab => hab.symm
  exact hsorted.imp₂ (fun _ _ hle hne => lt_iff.2 ⟨hle, hne⟩) hne

/-! ## Names -/

theorem splitSlashes_ne_nil (cs : List Char) : splitSlashes cs ≠ [] := by
  induction cs with
  | nil => exact List.cons_ne_nil _ _
  | cons c cs ih =>
    rw [splitSlashes.eq_def]
    split
    · exact List.cons_ne_nil _ _
    · exact List.cons_ne_nil _ _
    · split
      · exact List.cons_ne_nil _ _
      · exact List.cons_ne_nil _ _

theorem splitSlashes_cons {c : Char} (hc : c ≠ '/') {cs piece : List Char}
    {pieces : List (List Char)} (h : splitSlashes cs = piece :: pieces) :
    splitSlashes (c :: cs) = (c :: piece) :: pieces := by
  rw [splitSlashes, h]
  exact hc

theorem splitSlashes_append (cs ds : List Char) :
    splitSlashes (cs ++ '/' :: ds) = splitSlashes cs ++ splitSlashes ds := by
  induction cs with
  | nil => rfl
  | cons c cs ih =>
    by_cases hc : c = '/'
    · subst hc
      exact congrArg ([] :: ·) ih
    · obtain ⟨piece, pieces, hcs⟩ := List.exists_cons_of_ne_nil (splitSlashes_ne_nil cs)
      rw [hcs, List.cons_append] at ih
      rw [List.cons_append, splitSlashes_cons hc ih, splitSlashes_cons hc hcs, List.cons_append]

theorem splitSlashes_of_not_mem {cs : List Char} (h : '/' ∉ cs) : splitSlashes cs = [cs] := by
  induction cs with
  | nil => rfl
  | cons c cs ih =>
    rw [List.mem_cons, not_or] at h
    exact splitSlashes_cons (Ne.symm h.1) (ih h.2)

theorem toList_slash : "/".toList = ['/'] := by decide

theorem pieces_append_slash (path rest : String) :
    pieces (path ++ "/" ++ rest) = pieces path ++ pieces rest := by
  rw [pieces, String.toList_append, String.toList_append, toList_slash, List.append_assoc,
    List.singleton_append, splitSlashes_append, List.map_append, pieces, pieces]

theorem parts_append_slash {path : String} (h : path ≠ "") (rest : String) :
    parts (path ++ "/" ++ rest) = parts path ++ (pieces rest).filterMap part? := by
  have hchars : path.toList ≠ [] := mt String.toList_eq_nil_iff.1 h
  have hpieces : pieces path ≠ [] := mt List.map_eq_nil_iff.1 (splitSlashes_ne_nil _)
  have habsolute : isAbsolute (path ++ "/" ++ rest) = isAbsolute path := by
    rw [isAbsolute, isAbsolute, String.toList_append, String.toList_append, List.append_assoc,
      List.head?_append_of_ne_nil _ hchars]
  rw [parts, parts, habsolute, pieces_append_slash, List.head?_append_of_ne_nil _ hpieces,
    List.filterMap_append, List.append_assoc]

theorem parts_slash_append (rest : String) :
    parts ("/" ++ rest) = .root :: (pieces rest).filterMap part? := by
  have hchars : ("/" ++ rest).toList = '/' :: rest.toList := by
    rw [String.toList_append, toList_slash, List.singleton_append]
  have habsolute : isAbsolute ("/" ++ rest) = true := by
    rw [isAbsolute, hchars]
    rfl
  have hpieces : pieces ("/" ++ rest) = "" :: pieces rest := by
    rw [pieces, hchars]
    rfl
  rw [parts, habsolute, hpieces]
  rfl

theorem IsName.pieces_eq {name : String} (h : IsName name) : pieces name = [name] := by
  rw [pieces, splitSlashes_of_not_mem h.noSlash, List.map_singleton, String.ofList_toList]

theorem IsName.part?_eq {name : String} (h : IsName name) : part? name = some (.name name) := by
  simp [part?, h.nonempty, h.notCurrent, h.notParent]

theorem IsName.filterMap_pieces {name : String} (h : IsName name) :
    (pieces name).filterMap part? = [.name name] := by
  rw [h.pieces_eq, List.filterMap_cons_some h.part?_eq, List.filterMap_nil]

theorem IsName.parts_eq {name : String} (h : IsName name) : parts name = [.name name] := by
  have habsolute : isAbsolute name = false := by
    rw [isAbsolute, beq_eq_false_iff_ne]
    exact fun hhead => h.noSlash (List.mem_of_mem_head? hhead)
  have hcurrent : ((some name : Option String) == some ".") = false := by
    simpa using h.notCurrent
  rw [parts, habsolute, h.filterMap_pieces, h.pieces_eq, List.head?_cons, hcurrent]
  rfl

theorem parts_join {name : String} (h : IsName name) (path : String) :
    parts (join path name) = parts path ++ [.name name] := by
  rw [join]
  split
  · next hempty =>
    rw [String.isEmpty_iff.1 hempty, h.parts_eq]
    rfl
  split
  · next hlast =>
    -- The path is some other path with a slash behind it.
    obtain ⟨cs, hcs⟩ := List.getLast?_eq_some_iff.1 (beq_iff_eq.1 hlast)
    have hpath : path = String.ofList cs ++ "/" := by
      rw [← String.toList_inj, String.toList_append, String.toList_ofList, hcs, toList_slash]
    rw [hpath]
    by_cases hfront : String.ofList cs = ""
    · rw [hfront, String.empty_append, parts_slash_append, h.filterMap_pieces]
      rfl
    · have hslash := parts_append_slash hfront ""
      rw [String.append_empty] at hslash
      rw [parts_append_slash hfront, hslash, h.filterMap_pieces, List.append_assoc]
      rfl
  · next hempty _ =>
    have hne : path ≠ "" := mt String.isEmpty_iff.2 hempty
    rw [parts_append_slash hne, h.filterMap_pieces]

/-! ## Names in a row -/

theorem parts_foldl_join {names : List String} (h : ∀ name ∈ names, IsName name) (path : String) :
    parts (names.foldl join path) = parts path ++ names.map .name := by
  induction names generalizing path with
  | nil => exact (List.append_nil _).symm
  | cons name names ih =>
    rw [List.forall_mem_cons] at h
    rw [List.foldl_cons, ih h.2, parts_join h.1, List.append_assoc, List.singleton_append,
      List.map_cons]

theorem dropParts?_append (base rest : List Part) : dropParts? base (base ++ rest) = some rest := by
  induction base with
  | nil => rfl
  | cons a base ih => rw [List.cons_append, dropParts?, if_pos rfl, ih]

/-- What names lead to from a base is seen from there as these names. -/
theorem relativeTo_foldl_join {names : List String} (h : ∀ name ∈ names, IsName name)
    (base : String) : relativeTo (names.foldl join base) base = "/".intercalate names := by
  have hdisplay : Part.display ∘ Part.name = id := rfl
  rw [relativeTo, parts_foldl_join h, dropParts?_append]
  simp only [joinPieces, List.map_map, hdisplay, List.map_id]

end CodeGraph.Path

import CodeGraph.Glob.Basic

/-!
# Reading patterns

`Glob.ofText?` splits a pattern into tokens. A `Draft` is what was read so far: the current branch,
and the groups of alternatives that are open around it.
-/

namespace CodeGraph.Glob

/-- An open group of alternatives. -/
structure Group where
  /-- The tokens in front of the group, in reverse. -/
  before : List Token
  /-- The finished branches, in reverse. -/
  branches : List (List Token)

/-- A pattern that is being read. -/
structure Draft where
  /-- The tokens of the current branch, in reverse. -/
  current : List Token
  /-- The open groups, the innermost first. -/
  groups : List Group
  /-- Whether a `[` still begins a class. -/
  classes : Bool

namespace Draft

def push (d : Draft) (t : Token) : Draft := { d with current := t :: d.current }

def openGroup (d : Draft) : Draft := { d with current := [], groups := ⟨d.current, []⟩ :: d.groups }

/-- A comma begins a new branch, if a group is open. -/
def comma (d : Draft) : Draft :=
  match d.groups with
  | [] => d.push (.literal ',')
  | g :: groups =>
    { d with
      current := []
      groups := { g with branches := d.current.reverse :: g.branches } :: groups }

def closeGroup (d : Draft) : Except Fault Draft :=
  match d.groups with
  | [] => .error .unopenedAlternatives
  | g :: groups =>
    .ok { d with
      current := .alternatives (d.current.reverse :: g.branches).reverse :: g.before
      groups }

/-- Puts a token for two stars in the place of the slash before them. Behind another such token at
an end of the pattern they add nothing. -/
def replaceSlash (d : Draft) (t : Token) : Draft :=
  match d.current with
  | .leading :: _ | .trailing :: _ => d
  | _ :: rest => { d with current := t :: rest }
  | [] => d.push t

/-- Takes up two stars between two characters, and tells whether the next character, a slash,
belongs to them. -/
def doubleStar (d : Draft) (previous next : Option Char) : Draft × Bool :=
  let inGroup := !d.groups.isEmpty
  let plain := (d.push .star).push .star
  if d.current.isEmpty then
    if next.all (· == '/') then (d.push .leading, true) else (plain, false)
  else if previous == some '/' ||
      (inGroup && (previous == some ',' || previous == some '\x7b')) then
    match next with
    | none => (d.replaceSlash .trailing, false)
    | some '/' => (d.replaceSlash .between, true)
    | some c => if inGroup && (c == ',' || c == '\x7d') then (d.replaceSlash .trailing, false)
      else (plain, false)
  else (plain, false)

end Draft

/-! ## Classes -/

/-- A class that is being read: its ranges in reverse, and whether a `-` waits for its end. -/
structure ClassDraft where
  ranges : List (Char × Char)
  inRange : Bool

/-- Takes up a character of a class. -/
def ClassDraft.add (d : ClassDraft) (c : Char) : Except Fault ClassDraft :=
  match d.inRange, d.ranges with
  | true, (first, _) :: rest =>
    if c < first then .error (.invalidRange first c) else .ok ⟨(first, c) :: rest, false⟩
  | _, ranges => .ok ⟨(c, c) :: ranges, false⟩

/-- The ranges of a class. A `-` at the end stands for itself. -/
def ClassDraft.finish (d : ClassDraft) : List (Char × Char) :=
  (if d.inRange then ('-', '-') :: d.ranges else d.ranges).reverse

/-- Reads a class behind its first character, up to the `]`. -/
def readClassTail (d : ClassDraft) :
    List Char → Except Fault (Option (List (Char × Char) × List Char))
  | [] => .ok none
  | ']' :: rest => .ok (some (d.finish, rest))
  | c :: rest =>
    if c == '-' && !d.inRange then readClassTail ⟨d.ranges, true⟩ rest
    else
      match d.add c with
      | .ok d => readClassTail d rest
      | .error e => .error e

/-- Reads the characters of a class, of which the first may be a `]`. -/
def readRanges : List Char → Except Fault (Option (List (Char × Char) × List Char))
  | [] => .ok none
  | c :: rest => readClassTail ⟨[(c, c)], false⟩ rest

/-- Reads a class behind its `[`, up to the `]`, if there is one. -/
def readClass : List Char → Except Fault (Option (Token × List Char))
  | '!' :: rest | '^' :: rest =>
    (readRanges rest).map fun found => found.map fun (ranges, rest) => (.oneOf true ranges, rest)
  | rest =>
    (readRanges rest).map fun found => found.map fun (ranges, rest) => (.oneOf false ranges, rest)

theorem length_le_of_readClassTail {d : ClassDraft} {s : List Char}
    {x : List (Char × Char) × List Char} (h : readClassTail d s = .ok (some x)) :
    x.2.length ≤ s.length := by
  fun_induction readClassTail d s with
  | case1 => simp at h
  | case2 =>
    simp only [Except.ok.injEq, Option.some.injEq] at h
    simp [← h]
  | case3 d c rest _ _ ih => exact Nat.le_succ_of_le (ih h)
  | case4 d c rest _ _ d' _ ih => exact Nat.le_succ_of_le (ih h)
  | case5 => simp at h

theorem length_le_of_readRanges {s : List Char} {x : List (Char × Char) × List Char}
    (h : readRanges s = .ok (some x)) : x.2.length ≤ s.length := by
  cases s with
  | nil => simp [readRanges] at h
  | cons c rest => exact Nat.le_succ_of_le (length_le_of_readClassTail h)

theorem length_le_of_map_readRanges {f : List (Char × Char) → Token} {s : List Char}
    {x : Token × List Char}
    (h : ((readRanges s).map fun found => found.map fun (ranges, rest) => (f ranges, rest)) =
      .ok (some x)) : x.2.length ≤ s.length := by
  cases hr : readRanges s with
  | error e => simp [hr, Except.map] at h
  | ok found =>
    cases found with
    | none => simp [hr, Except.map] at h
    | some y =>
      simp only [hr, Except.map, Option.map_some, Except.ok.injEq, Option.some.injEq] at h
      rw [← h]
      exact length_le_of_readRanges hr

theorem length_le_of_readClass {s : List Char} {x : Token × List Char}
    (h : readClass s = .ok (some x)) : x.2.length ≤ s.length := by
  unfold readClass at h
  split at h
  · exact Nat.le_succ_of_le (length_le_of_map_readRanges h)
  · exact Nat.le_succ_of_le (length_le_of_map_readRanges h)
  · exact length_le_of_map_readRanges h

/-! ## Patterns -/

/-- Reads on behind the character `previous`. -/
def readTokens (style : Style) (d : Draft) (previous : Option Char) (s : List Char) :
    Except Fault Draft :=
  match s with
  | [] => .ok d
  | '*' :: '*' :: rest =>
    let (d, joined) := d.doubleStar previous rest.head?
    if joined then readTokens style d (some '/') (rest.drop 1)
    else readTokens style d (some '*') rest
  | '\\' :: rest =>
    match rest with
    | [] => .error .danglingEscape
    | c :: rest => readTokens style (d.push (.literal c)) (some c) rest
  | '\x7d' :: rest =>
    match d.closeGroup with
    | .ok d => readTokens style d (some '\x7d') rest
    | .error e => .error e
  | c :: rest =>
    if c == '[' && d.classes then
      match _h : readClass rest with
      | .error e => .error e
      | .ok (some (t, rest)) => readTokens style (d.push t) (some ']') rest
      | .ok none =>
        if style.looseBracket then
          readTokens style { d.push (.literal '[') with classes := false } (some '[') rest
        else .error .unclosedClass
    else
      let d :=
        match c with
        | '?' => d.push .any
        | '*' => d.push .star
        | '\x7b' => d.openGroup
        | ',' => d.comma
        | c => d.push (.literal c)
      readTokens style d (some c) rest
termination_by s.length
decreasing_by
  all_goals first
    | (have h := length_le_of_readClass _h; simp only [List.length_cons] at h ⊢; omega)
    | (simp only [List.length_cons, List.length_drop]; omega)

end CodeGraph.Glob

namespace CodeGraph

/-- The pattern that a text spells. -/
def Glob.ofText? (style : Glob.Style) (text : String) : Except GlobError Glob :=
  match Glob.readTokens style ⟨[], [], true⟩ none text.toList with
  | .error fault => .error ⟨text, fault⟩
  | .ok d =>
    if d.groups.isEmpty then .ok ⟨style, d.current.reverse⟩
    else .error ⟨text, .unclosedAlternatives⟩

end CodeGraph

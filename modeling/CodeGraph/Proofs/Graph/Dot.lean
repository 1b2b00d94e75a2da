import CodeGraph.Graph.Dot
import CodeGraph.Proofs.Lists

/-!
# DOT is unambiguous

A reader for the lines of DOT text: it takes a text apart at its line breaks (`lines?`), undoes the
escapes of a label up to the closing quote (`readLabel?`), and reads a line as that of a vertex or
of an edge. No line is read as both (`readVertexLine?_arcText`). Whatever is in a label, it does not
break its line, and it is read back. So the text of a graph shows what its vertices display and how
its edges are labelled, and nothing else (`toDot_unambiguous`).
-/

namespace CodeGraph

namespace Dot

/-! ## Reading -/

/-- The lines of a text, each of which ends with a line break. -/
def lines? : List Char → Option (List (List Char))
  | [] => some []
  | c :: rest =>
    if c = '\n' then (lines? rest).map ([] :: ·)
    else match lines? rest with
      | some (line :: later) => some ((c :: line) :: later)
      | _ => none

/-- A label up to the closing quote, and what is behind that. -/
def readLabel? : List Char → Option (List Char × List Char)
  | [] => none
  | '"' :: rest => some ([], rest)
  | '\\' :: 'l' :: rest => (readLabel? rest).map fun (label, behind) => ('\n' :: label, behind)
  | '\\' :: c :: rest => (readLabel? rest).map fun (label, behind) => (c :: label, behind)
  | c :: rest => (readLabel? rest).map fun (label, behind) => (c :: label, behind)

/-! The fixed parts of a line. -/

def indent : List Char := "    ".toList

def space : List Char := " ".toList

def arrow : List Char := " -> ".toList

def beforeLabel : List Char := "[ label = \"".toList

def behindLabel : List Char := " ]".toList

/-- The label in attributes that end the line. -/
def readAttributes? (cs : List Char) : Option String := do
  let rest ← beforeLabel.isPrefixOf? cs
  let (label, rest) ← readLabel? rest
  if rest = behindLabel then some (String.ofList label) else none

def readNumber? (cs : List Char) : Option (Nat × List Char) :=
  match cs.takeWhile Char.isDigit with
  | [] => none
  | digits => some (Nat.ofDigitChars 10 digits 0, cs.dropWhile Char.isDigit)

/-- The number at the beginning of a line, and what is behind it. -/
def readIndented? (line : List Char) : Option (Nat × List Char) :=
  (indent.isPrefixOf? line).bind readNumber?

/-- The index of a vertex and what it displays. -/
def readVertexLine? (line : List Char) : Option (Nat × String) := do
  let (index, rest) ← readIndented? line
  let rest ← space.isPrefixOf? rest
  let label ← readAttributes? rest
  some (index, label)

/-- The indices of the ends of an edge, and its label. -/
def readArcLine? (line : List Char) : Option (Nat × Nat × String) := do
  let (tail, rest) ← readIndented? line
  let rest ← arrow.isPrefixOf? rest
  let (head, rest) ← readNumber? rest
  let rest ← space.isPrefixOf? rest
  let label ← readAttributes? rest
  some (tail, head, label)

/-! ## Lines -/

theorem lines?_append {line : List Char} (h : '\n' ∉ line) (rest : List Char) :
    lines? (line ++ '\n' :: rest) = (lines? rest).map (line :: ·) := by
  induction line with
  | nil => rfl
  | cons c line ih =>
    rw [List.mem_cons, not_or] at h
    rw [List.cons_append, lines?, if_neg (Ne.symm h.1), ih h.2]
    cases lines? rest <;> rfl

theorem lines?_flatMap {lines : List (List Char)} (h : ∀ line ∈ lines, '\n' ∉ line) :
    lines? (lines.flatMap (· ++ ['\n'])) = some lines := by
  induction lines with
  | nil => rfl
  | cons line rest ih =>
    rw [List.forall_mem_cons] at h
    rw [List.flatMap_cons, List.append_assoc, List.singleton_append, lines?_append h.1, ih h.2,
      Option.map_some]

/-! ## Labels -/

theorem readLabel?_escapeChar (c : Char) (rest : List Char) :
    readLabel? (escapeChar c ++ rest) =
      (readLabel? rest).map fun (label, behind) => (c :: label, behind) := by
  rw [escapeChar]
  split
  · next hescaped =>
    rcases hescaped with rfl | rfl
    · rfl
    · rfl
  · next hplain =>
    rw [not_or] at hplain
    split
    · next hbreak =>
      subst hbreak
      rfl
    · rw [List.singleton_append, readLabel?]
      · exact hplain.1
      · rintro rest' rfl
        exact absurd rfl hplain.2
      · rintro c' rest' rfl
        exact absurd rfl hplain.2

theorem readLabel?_flatMap_escapeChar (label behind : List Char) :
    readLabel? (label.flatMap escapeChar ++ '"' :: behind) = some (label, behind) := by
  induction label with
  | nil => rfl
  | cons c label ih =>
    rw [List.flatMap_cons, List.append_assoc, readLabel?_escapeChar, ih, Option.map_some]

theorem not_mem_flatMap_escapeChar (label : List Char) : '\n' ∉ label.flatMap escapeChar := by
  rw [List.mem_flatMap]
  rintro ⟨c, -, h⟩
  rw [escapeChar] at h
  split at h
  · next hescaped => rcases hescaped with rfl | rfl <;> exact absurd h (by decide)
  · split at h
    · exact absurd h (by decide)
    · next hbreak => exact hbreak (List.mem_singleton.1 h).symm

/-! ## Written lines -/

theorem readNumber?_toDigits (n : Nat) {rest : List Char}
    (hrest : ∀ c ∈ rest.head?, c.isDigit = false) :
    readNumber? (Nat.toDigits 10 n ++ rest) = some (n, rest) := by
  have hdigits : ∀ c ∈ Nat.toDigits 10 n, c.isDigit = true := fun c =>
    Nat.isDigit_of_mem_toDigits (by decide) (by decide)
  have hbehind : rest.takeWhile Char.isDigit = [] ∧ rest.dropWhile Char.isDigit = rest := by
    cases rest with
    | nil => exact ⟨rfl, rfl⟩
    | cons c rest =>
      have hc : ¬ c.isDigit = true := Bool.eq_false_iff.1 (hrest c rfl)
      exact ⟨List.takeWhile_cons_of_neg hc, List.dropWhile_cons_of_neg hc⟩
  rw [readNumber?, List.takeWhile_append_of_pos hdigits, List.dropWhile_append_of_pos hdigits,
    hbehind.1, hbehind.2, List.append_nil]
  split
  · next hnil => exact absurd hnil Nat.toDigits_ne_nil
  · rw [Nat.ofDigitChars_ten_toDigits]

/-- The attributes with a label as they are written. -/
def attributesText (label : String) : List Char :=
  beforeLabel ++ (label.toList.flatMap escapeChar ++ '"' :: behindLabel)

/-- The line of a vertex as it is written. -/
def vertexText (index : Nat) (display : String) : List Char :=
  indent ++ (Nat.toDigits 10 index ++ (space ++ attributesText display))

/-- The line of an edge as it is written. -/
def arcText (tail head : Nat) (label : String) : List Char :=
  indent ++ (Nat.toDigits 10 tail ++ (arrow ++
    (Nat.toDigits 10 head ++ (space ++ attributesText label))))

theorem toList_attributes (label : String) : (attributes label).toList = attributesText label := by
  have hparts : attributes label = "[ label = \"" ++ escape label ++ "\" ]" := rfl
  have hescape : (escape label).toList = label.toList.flatMap escapeChar := String.toList_ofList
  have hbehind : "\" ]".toList = '"' :: behindLabel := by decide
  rw [hparts, String.toList_append, String.toList_append, hescape, hbehind, List.append_assoc]
  rfl

theorem toList_vertexLine (index : Nat) (v : Vertex) :
    (vertexLine index v).toList = vertexText index v.display ++ ['\n'] := by
  have hparts : vertexLine index v =
      "    " ++ index.repr ++ " " ++ attributes v.display ++ "\n" := rfl
  have hbreak : "\n".toList = ['\n'] := by decide
  rw [hparts]
  simp only [String.toList_append, Nat.toList_repr, toList_attributes, hbreak, vertexText, indent,
    space, List.append_assoc]

theorem toList_arcLine (x : Arc) :
    (arcLine x).toList = arcText x.tail x.head x.edge.label ++ ['\n'] := by
  have hparts : arcLine x = "    " ++ x.tail.repr ++ " -> " ++ x.head.repr ++ " " ++
      attributes x.edge.label ++ "\n" := rfl
  have hbreak : "\n".toList = ['\n'] := by decide
  rw [hparts]
  simp only [String.toList_append, Nat.toList_repr, toList_attributes, hbreak, arcText, indent,
    arrow, space, List.append_assoc]

/-! ## Lines read back -/

theorem readAttributes?_attributesText (label : String) :
    readAttributes? (attributesText label) = some label := by
  simp only [readAttributes?, attributesText, Lists.isPrefixOf?_append,
    readLabel?_flatMap_escapeChar, Option.bind_eq_bind, Option.bind_some, String.ofList_toList,
    if_true]

theorem readNumber?_space (n : Nat) (rest : List Char) :
    readNumber? (Nat.toDigits 10 n ++ (space ++ rest)) = some (n, space ++ rest) :=
  readNumber?_toDigits n fun c hc => by
    obtain rfl : ' ' = c := Option.some.inj hc
    decide

theorem readNumber?_arrow (n : Nat) (rest : List Char) :
    readNumber? (Nat.toDigits 10 n ++ (arrow ++ rest)) = some (n, arrow ++ rest) :=
  readNumber?_toDigits n fun c hc => by
    obtain rfl : ' ' = c := Option.some.inj hc
    decide

theorem readVertexLine?_vertexText (index : Nat) (display : String) :
    readVertexLine? (vertexText index display) = some (index, display) := by
  simp only [readVertexLine?, readIndented?, vertexText, Lists.isPrefixOf?_append,
    Option.bind_eq_bind, Option.bind_some, readNumber?_space, readAttributes?_attributesText]

theorem readArcLine?_arcText (tail head : Nat) (label : String) :
    readArcLine? (arcText tail head label) = some (tail, head, label) := by
  simp only [readArcLine?, readIndented?, arcText, Lists.isPrefixOf?_append, Option.bind_eq_bind,
    Option.bind_some, readNumber?_space, readNumber?_arrow, readAttributes?_attributesText]

theorem readVertexLine?_arcText (tail head : Nat) (label : String) :
    readVertexLine? (arcText tail head label) = none := by
  have hbehind : ∀ rest, (space.isPrefixOf? (arrow ++ rest)).bind readAttributes? = none :=
    fun _ => rfl
  simp only [readVertexLine?, readIndented?, arcText, Lists.isPrefixOf?_append,
    Option.bind_eq_bind, Option.bind_some, readNumber?_arrow]
  rw [← Option.bind_assoc, hbehind, Option.bind_none]

theorem readArcLine?_vertexText (index : Nat) (display : String) :
    readArcLine? (vertexText index display) = none := by
  have hbehind : arrow.isPrefixOf? (space ++ attributesText display) = none := rfl
  simp only [readArcLine?, readIndented?, vertexText, Lists.isPrefixOf?_append,
    Option.bind_eq_bind, Option.bind_some, readNumber?_space, hbehind, Option.bind_none]

/-! ## Line breaks -/

theorem not_mem_toDigits (n : Nat) : '\n' ∉ Nat.toDigits 10 n := by
  intro h
  have hdigit := Nat.isDigit_of_mem_toDigits (by decide) (by decide) h
  exact absurd hdigit (by decide)

theorem not_mem_attributesText (label : String) : '\n' ∉ attributesText label := by
  have hfixed : '\n' ∉ beforeLabel ∧ '\n' ∉ '"' :: behindLabel := by decide
  simp only [attributesText, List.mem_append, hfixed, not_mem_flatMap_escapeChar, or_self,
    not_false_eq_true]

theorem not_mem_vertexText (index : Nat) (display : String) : '\n' ∉ vertexText index display := by
  have hfixed : '\n' ∉ indent ∧ '\n' ∉ space := by decide
  simp only [vertexText, List.mem_append, hfixed, not_mem_toDigits, not_mem_attributesText, or_self,
    not_false_eq_true]

theorem not_mem_arcText (tail head : Nat) (label : String) : '\n' ∉ arcText tail head label := by
  have hfixed : '\n' ∉ indent ∧ '\n' ∉ space ∧ '\n' ∉ arrow := by decide
  simp only [arcText, List.mem_append, hfixed, not_mem_toDigits, not_mem_attributesText, or_self,
    not_false_eq_true]

/-! ## All lines -/

/-- The lines of a graph whose vertices and edges show this. -/
def graphLines (displays : List String) (arcs : List (Nat × Nat × String)) : List (List Char) :=
  "digraph \x7b".toList :: ((displays.zipIdx.map fun x => vertexText x.2 x.1) ++
    (arcs.map fun x => arcText x.1 x.2.1 x.2.2) ++ ["\x7d".toList])

section lines

variable (displays : List String) (arcs : List (Nat × Nat × String))

theorem lines?_graphLines :
    lines? ((graphLines displays arcs).flatMap (· ++ ['\n'])) =
      some (graphLines displays arcs) := by
  refine lines?_flatMap fun line hline => ?_
  rcases List.mem_cons.1 hline with rfl | hline
  · decide
  rcases List.mem_append.1 hline with hline | hline
  · rcases List.mem_append.1 hline with hline | hline
    · obtain ⟨x, -, rfl⟩ := List.mem_map.1 hline
      exact not_mem_vertexText _ _
    · obtain ⟨x, -, rfl⟩ := List.mem_map.1 hline
      exact not_mem_arcText _ _ _
  · rw [List.mem_singleton.1 hline]
    decide

theorem filterMap_readVertexLine? :
    (graphLines displays arcs).filterMap readVertexLine? =
      displays.zipIdx.map fun x => (x.2, x.1) := by
  have hfirst : readVertexLine? "digraph \x7b".toList = none := by decide
  have hlast : readVertexLine? "\x7d".toList = none := by decide
  simp only [graphLines, List.filterMap_cons, hfirst, List.filterMap_append, List.filterMap_map,
    Function.comp_def, readVertexLine?_vertexText, readVertexLine?_arcText, hlast,
    List.filterMap_nil, List.filterMap_none, List.append_nil, List.filterMap_eq_map']

theorem filterMap_readArcLine? :
    (graphLines displays arcs).filterMap readArcLine? = arcs := by
  have hfirst : readArcLine? "digraph \x7b".toList = none := by decide
  have hlast : readArcLine? "\x7d".toList = none := by decide
  simp only [graphLines, List.filterMap_cons, hfirst, List.filterMap_append, List.filterMap_map,
    Function.comp_def, readArcLine?_vertexText, readArcLine?_arcText, hlast,
    List.filterMap_nil, List.filterMap_none, List.append_nil, List.nil_append]
  exact List.filterMap_some

end lines

end Dot

namespace PropertyGraph

open Dot

/-- What the vertices display, in order of creation. -/
def displays (g : PropertyGraph) : List String := g.vertices.toList.map Vertex.display

/-- The indices of the ends of each edge and its label, in order of creation. -/
def labelledArcs (g : PropertyGraph) : List (Nat × Nat × String) :=
  g.arcs.toList.map fun x => (x.tail, x.head, x.edge.label)

theorem toList_toDot (g : PropertyGraph) :
    g.toDot.toList = (graphLines g.displays g.labelledArcs).flatMap (· ++ ['\n']) := by
  have hopening : "digraph \x7b\n".toList = "digraph \x7b".toList ++ ['\n'] := by decide
  have hclosing : "\x7d\n".toList = "\x7d".toList ++ ['\n'] := by decide
  rw [toDot]
  simp only [String.toList_append, String.toList_join, List.flatMap_map, toList_vertexLine,
    toList_arcLine, hopening, hclosing, graphLines, displays, labelledArcs, List.zipIdx_map,
    List.flatMap_cons, List.flatMap_append, List.flatMap_nil, List.append_nil, List.append_assoc,
    Prod.map_fst, Prod.map_snd, id]

/-- **DOT is unambiguous.** The lines of the text of a graph are the opening one, one for each
vertex, one for each edge and the closing one. The line of each vertex is read as its index and its
id with its kind, or with `?` if it has none, and that of each edge as the indices of its ends and
its label, both in order of creation. Two graphs have the same text if and only if their vertices
display the same and their edges are labelled alike. -/
theorem toDot_unambiguous (g : PropertyGraph) :
    (∃ vertexLines arcLines : List (List Char),
      lines? g.toDot.toList =
        some ("digraph \x7b".toList :: (vertexLines ++ arcLines ++ ["\x7d".toList])) ∧
      vertexLines.map readVertexLine? = g.vertices.toList.zipIdx.map (fun x =>
        some (x.2, toString x.1.id ++ " " ++ x.1.kind?.getD "?")) ∧
      arcLines.map readArcLine? = g.arcs.toList.map fun x =>
        some (x.tail, x.head, x.edge.label)) ∧
    ∀ h : PropertyGraph, h.toDot = g.toDot ↔
      h.displays = g.displays ∧ h.labelledArcs = g.labelledArcs := by
  have hlines : ∀ g : PropertyGraph, lines? g.toDot.toList =
      some (graphLines g.displays g.labelledArcs) := fun g => by
    rw [toList_toDot, lines?_graphLines]
  refine ⟨⟨_, _, hlines g, ?_, ?_⟩, fun h => ⟨fun heq => ?_, fun heq => ?_⟩⟩
  · rw [displays, List.zipIdx_map, List.map_map, List.map_map]
    exact List.map_congr_left fun x _ => readVertexLine?_vertexText _ _
  · rw [labelledArcs, List.map_map, List.map_map]
    exact List.map_congr_left fun x _ => readArcLine?_arcText _ _ _
  · have hsame := hlines h
    rw [heq, hlines g, Option.some.injEq] at hsame
    constructor
    · have hread := congrArg (List.filterMap readVertexLine?) hsame
      rw [filterMap_readVertexLine?, filterMap_readVertexLine?] at hread
      have hshown := congrArg (List.map Prod.snd) hread
      simpa [Function.comp_def] using hshown.symm
    · have hread := congrArg (List.filterMap readArcLine?) hsame
      rw [filterMap_readArcLine?, filterMap_readArcLine?] at hread
      exact hread.symm
  · rw [← String.toList_inj, toList_toDot, toList_toDot, heq.1, heq.2]

/-- A line break and a backslash before an `l` are told apart. -/
example : escape "\n" = "\\l" ∧ escape "\\l" = "\\\\l" := by decide

end PropertyGraph

end CodeGraph

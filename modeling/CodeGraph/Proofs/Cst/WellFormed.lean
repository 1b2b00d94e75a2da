import CodeGraph.Cst.Abstraction
import CodeGraph.Proofs.Attempt
import CodeGraph.Proofs.Cst.Order

/-!
# Rows that read text

A concrete syntax tree is well formed over a source if its rows are in pre-order and the range of
each begins and ends between two characters. Then each row reads one text, and this is what decoding
the octets of its range gives (`Outline.text?_eq_some_iff`). So it becomes a syntax tree, unless its
errors are a reason to refuse it (`WellFormed.exists_toSyntaxTree`).
-/

namespace CodeGraph

namespace Cst

/-- Whether a text stands in the source where the range of a row is. -/
def Row.Covers (r : Row) (source text : String) : Prop :=
  ∃ before after : String, source = before ++ text ++ after ∧
    r.startByte = before.utf8ByteSize ∧ r.endByte = before.utf8ByteSize + text.utf8ByteSize

/-- Whether a text is what a row of a source reads. -/
def Reads (c : Cst) (source : String) (i : Nat) (text : String) : Prop :=
  ∃ r, c.rows[i]? = some r ∧ r.Covers source text

/-- The rows of a source in pre-order, whose ranges lie between characters of it. -/
structure WellFormed (c : Cst) (source : String) : Prop where
  preOrdered : c.PreOrdered
  covers : ∀ (i : Nat) (r : Row), c.rows[i]? = some r → ∃ text, r.Covers source text

theorem Row.Covers.decode_eq {r : Row} {source text : String} (h : r.Covers source text) :
    Utf8.decode (source.toUTF8.extract r.startByte r.endByte) = .ok text := by
  obtain ⟨before, after, rfl, hstart, hend⟩ := h
  have hoctets : (before ++ text ++ after).toUTF8.extract r.startByte r.endByte =
      text.toByteArray := by
    rw [hstart, hend, String.toUTF8, String.toByteArray_append, String.toByteArray_append,
      String.utf8ByteSize, String.utf8ByteSize, ByteArray.extract_append,
      ByteArray.extract_append_eq_right rfl rfl]
    simp
  have hvalid : text.toByteArray.IsValidUTF8 := text.isValidUTF8
  rw [hoctets, Utf8.decode, String.fromUTF8?, dif_pos hvalid]
  rfl

variable {c : Cst} {source : String}

theorem Reads.unique {i : Nat} {text other : String} (h : c.Reads source i text)
    (hother : c.Reads source i other) : text = other := by
  obtain ⟨r, hr, htext⟩ := h
  obtain ⟨s, hs, hcovers⟩ := hother
  obtain rfl : r = s := Option.some.inj (hr.symm.trans hs)
  have heq := htext.decode_eq.symm.trans hcovers.decode_eq
  exact Except.ok.inj heq

theorem WellFormed.exists_reads (h : c.WellFormed source) {i : Nat} (hi : i < c.size) :
    ∃ text, c.Reads source i text := by
  have hr : c.rows[i]? = some c.rows[i] := Array.getElem?_eq_getElem hi
  obtain ⟨text, htext⟩ := h.covers i _ hr
  exact ⟨text, _, hr, htext⟩

/-- A function that calls itself. The body of the function has no name in the grammar. -/
def recursiveRows : Cst := ofRows
  #[⟨none, "module", true, false, false, none, 0, 12, 0, 0, 0, 12⟩,
    ⟨some 0, "function_definition", true, false, false, none, 0, 12, 0, 0, 0, 12⟩,
    ⟨some 1, "def", false, false, false, none, 0, 3, 0, 0, 0, 3⟩,
    ⟨some 1, "identifier", true, false, false, some "name", 4, 5, 0, 4, 0, 5⟩,
    ⟨some 1, "body", false, false, false, some "body", 9, 12, 0, 9, 0, 12⟩,
    ⟨some 4, "call", true, false, false, none, 9, 12, 0, 9, 0, 12⟩,
    ⟨some 5, "identifier", true, false, false, some "function", 9, 10, 0, 9, 0, 10⟩]

theorem wellFormed_recursiveRows : recursiveRows.WellFormed "def f(): f()" where
  preOrdered := by decide +kernel
  covers
    | 0, _, rfl => ⟨"def f(): f()", "", "", by decide, by decide, by decide⟩
    | 1, _, rfl => ⟨"def f(): f()", "", "", by decide, by decide, by decide⟩
    | 2, _, rfl => ⟨"def", "", " f(): f()", by decide, by decide, by decide⟩
    | 3, _, rfl => ⟨"f", "def ", "(): f()", by decide, by decide, by decide⟩
    | 4, _, rfl => ⟨"f()", "def f(): ", "", by decide, by decide, by decide⟩
    | 5, _, rfl => ⟨"f()", "def f(): ", "", by decide, by decide, by decide⟩
    | 6, _, rfl => ⟨"f", "def f(): ", "()", by decide, by decide, by decide⟩

theorem reads_recursiveRows : recursiveRows.Reads "def f(): f()" 6 "f" :=
  ⟨_, rfl, "def f(): ", "()", by decide, by decide, by decide⟩

end Cst

open Attempt

namespace Outline

variable {c : Cst} {source : String} {tables : Language.Tables} {config : Config} {i : Nat}
  {text : String}

theorem text_of_reads (h : c.Reads source i text) :
    (make source c tables config).text i = .ok text := by
  obtain ⟨r, hr, hcovers⟩ := h
  have hrow : (make source c tables config).cst.rows[i]? = some r := hr
  simp only [Outline.text, hrow]
  exact hcovers.decode_eq

theorem text?_eq_some_iff (hc : c.WellFormed source) (hi : i < c.size) :
    (make source c tables config).text? i = some text ↔ c.Reads source i text := by
  obtain ⟨read, hread⟩ := hc.exists_reads hi
  rw [text?, text_of_reads hread]
  change some read = some text ↔ _
  rw [Option.some.injEq]
  constructor
  · rintro rfl
    exact hread
  · exact hread.unique

theorem exists_addRow (hc : c.WellFormed source) (hi : i < c.size) (t : SyntaxTree) :
    ∃ t', (make source c tables config).addRow t i = .ok t' := by
  obtain ⟨text, hread⟩ := hc.exists_reads hi
  have hr : (make source c tables config).cst.rows[i]? = some c.rows[i] :=
    Array.getElem?_eq_getElem hi
  simp only [addRow, hr, nodeData, text_of_reads hread, bind_eq, ok_bind]
  split
  · exact ⟨_, rfl⟩
  · exact ⟨_, rfl⟩

end Outline

/-- A well-formed source becomes a syntax tree if no error in it is a reason not to. -/
theorem Cst.WellFormed.exists_toSyntaxTree {c : Cst} {source : String} (hc : c.WellFormed source)
    (tables : Language.Tables) (config : Config) (path : String) (number : UInt32)
    (hstrict : config.strict = true → c.firstError? = none) :
    ∃ t, c.toSyntaxTree source tables config path number = .ok t := by
  have hinside := (Outline.ordered_make hc.preOrdered source tables config).inside
  obtain ⟨shape, hshape⟩ := exists_foldlM
    (fun i hi t => Outline.exists_addRow hc (hinside i hi) t)
    ((SyntaxTree.empty number).setSourcePath path)
  have hnone : (if config.strict then c.firstError? else none) = none := by
    split
    · next h => exact hstrict h
    · rfl
  have hmade : (Outline.make source c tables config).shape number path = .ok shape := hshape
  rw [toSyntaxTree, hnone]
  simp only [hmade]
  exact ⟨_, rfl⟩

end CodeGraph

import CodeGraph.Json.Basic
import CodeGraph.Json.Reading

/-!
# Quoted texts read back

Each character of a text is written so that it is read as one unit, itself (`readUnits_escapeChar`).
So what stands between the quotes gives the text again, whatever comes behind.
-/

namespace CodeGraph.Json

/-! ## One character -/

/-- Control characters are spelled by the two last of four digits. -/
theorem hexDigits_of_lt {c : Char} (h : c.toNat < 0x20) :
    hexDigits c = ['0', '0', Nat.digitChar (c.toNat / 16), Nat.digitChar (c.toNat % 16)] := by
  have hall : ∀ k < 0x20, hexDigits (Char.ofNat k) =
      ['0', '0', Nat.digitChar (k / 16), Nat.digitChar (k % 16)] := by decide
  have hc := hall c.toNat h
  rwa [Char.ofNat_toNat] at hc

theorem hexUnit?_of_lt {k : Nat} (h : k < 0x20) :
    hexUnit? '0' '0' (Nat.digitChar (k / 16)) (Nat.digitChar (k % 16)) = some k := by
  have hall : ∀ k < 0x20,
      hexUnit? '0' '0' (Nat.digitChar (k / 16)) (Nat.digitChar (k % 16)) = some k := by decide
  exact hall k h

theorem ofUnit_of_lt {c : Char} (h : c.toNat < 0x20) : TextUnit.ofUnit c.toNat = .char c := by
  have hhigh : isHighSurrogate c.toNat = false := by
    unfold isHighSurrogate
    rw [Bool.and_eq_false_iff]
    exact .inl (decide_eq_false (by omega))
  have hlow : isLowSurrogate c.toNat = false := by
    unfold isLowSurrogate
    rw [Bool.and_eq_false_iff]
    exact .inl (decide_eq_false (by omega))
  unfold TextUnit.ofUnit
  rw [hhigh, hlow, Char.ofNat_toNat]
  rfl

theorem readUnits_control {c : Char} (h : c.toNat < 0x20) (before : List TextUnit)
    (rest : List Char) :
    readUnits before ('\\' :: 'u' :: hexDigits c ++ rest) = readUnits (.char c :: before) rest := by
  rw [hexDigits_of_lt h]
  simp only [List.cons_append, List.nil_append]
  rw [readUnits, hexUnit?_of_lt h]
  simp only [ofUnit_of_lt h]

theorem readUnits_plain {c : Char} (hquote : c ≠ '"') (hescape : c ≠ '\\')
    (h : ¬ c.toNat < 0x20) (before : List TextUnit) (rest : List Char) :
    readUnits before (c :: rest) = readUnits (.char c :: before) rest := by
  rw [readUnits, if_neg h]
  · exact hquote
  · intro a b d e rest' hc
    exact absurd hc hescape
  · intro d rest' hc
    exact absurd hc hescape

theorem readUnits_escapeChar (c : Char) (before : List TextUnit) (rest : List Char) :
    readUnits before (escapeChar c ++ rest) = readUnits (.char c :: before) rest := by
  unfold escapeChar
  split
  · rfl
  · rfl
  · rfl
  · rfl
  · rfl
  · rfl
  · rfl
  · next hquote hescape _ _ _ _ _ =>
    split
    · next h => exact readUnits_control h before rest
    · next h => exact readUnits_plain hquote hescape h before rest

/-! ## All characters -/

theorem readUnits_flatMap_escapeChar (cs : List Char) (before : List TextUnit) (rest : List Char) :
    readUnits before (cs.flatMap escapeChar ++ '"' :: rest) =
      some (cs.reverse.map .char ++ before, rest) := by
  induction cs generalizing before with
  | nil => rfl
  | cons c cs ih =>
    rw [List.flatMap_cons, List.append_assoc, readUnits_escapeChar, ih]
    simp

theorem joinUnits_chars (behind cs : List Char) :
    joinUnits behind (cs.map .char) = some (cs.reverse ++ behind) := by
  induction cs generalizing behind with
  | nil => rfl
  | cons c cs ih =>
    rw [List.map_cons, joinUnits, ih]
    simp

theorem readQuoted?_flatMap_escapeChar (s : String) (rest : List Char) :
    readQuoted? (s.toList.flatMap escapeChar ++ '"' :: rest) = some (some s, rest) := by
  have hjoin : joinUnits [] (s.toList.reverse.map .char) = some s.toList := by
    rw [joinUnits_chars, List.reverse_reverse, List.append_nil]
  unfold readQuoted?
  rw [readUnits_flatMap_escapeChar, Option.map_some, List.append_nil]
  simp only [hjoin, Option.map_some, String.ofList_toList]

end CodeGraph.Json

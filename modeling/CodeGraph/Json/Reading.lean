import CodeGraph.Json.Number

/-!
# Reading JSON

`Reading.ofText` reads a text as far as it is JSON. What is found before the fault is kept, so that
whoever looks at it in order meets first what comes first: a value of the wrong shape or the end of
what could be read. A number that is too large and a quoted text with half of a surrogate pair are
well-formed, but have no value; this matters only to those who ask for it.
-/

namespace CodeGraph.Json

/-- What was read of a value. -/
inductive Reading
  | null
  | bool (b : Bool)
  | number (value : Option Number)
  | text (content : Option String)
  /-- The items of an array, and whether it ends. -/
  | array (items : List Reading) (closed : Bool)
  /-- The members of an object, and whether it ends. -/
  | object (members : List (Option String × Reading)) (closed : Bool)
  /-- What stands here begins no value, or breaks off before it has one. -/
  | broken
  deriving Inhabited

/-! ## Quoted texts -/

/-- The value of a hexadecimal digit. -/
def hexValue? (c : Char) : Option Nat :=
  if '0' ≤ c ∧ c ≤ '9' then some (c.toNat - '0'.toNat)
  else if 'a' ≤ c ∧ c ≤ 'f' then some (c.toNat - 'a'.toNat + 10)
  else if 'A' ≤ c ∧ c ≤ 'F' then some (c.toNat - 'A'.toNat + 10)
  else none

/-- The number that four hexadecimal digits spell. -/
def hexUnit? (a b c d : Char) : Option Nat := do
  some (((← hexValue? a) * 16 + (← hexValue? b)) * 256 + ((← hexValue? c) * 16 + (← hexValue? d)))

def isHighSurrogate (unit : Nat) : Bool := 0xD800 ≤ unit && unit < 0xDC00

def isLowSurrogate (unit : Nat) : Bool := 0xDC00 ≤ unit && unit < 0xE000

/-- The character that a surrogate pair stands for. -/
def joinSurrogates (high low : Nat) : Char :=
  Char.ofNat (0x10000 + (high - 0xD800) * 0x400 + (low - 0xDC00))

/-- The character behind a backslash, of those that stand for one. -/
def simpleEscape? : Char → Option Char
  | '"' => some '"'
  | '\\' => some '\\'
  | '/' => some '/'
  | 'b' => some '\x08'
  | 'f' => some '\x0c'
  | 'n' => some '\n'
  | 'r' => some '\r'
  | 't' => some '\t'
  | _ => none

/-- One unit of a quoted text: a character, or half of a surrogate pair. -/
inductive TextUnit
  | char (c : Char)
  | half (unit : Nat)
  deriving DecidableEq, Inhabited

def TextUnit.ofUnit (unit : Nat) : TextUnit :=
  if isHighSurrogate unit || isLowSurrogate unit then half unit else char (Char.ofNat unit)

/-- The units up to the closing quote, in reverse behind those in `before`, and the rest. -/
def readUnits (before : List TextUnit) : List Char → Option (List TextUnit × List Char)
  | '"' :: rest => some (before, rest)
  | '\\' :: 'u' :: a :: b :: c :: d :: rest =>
    match hexUnit? a b c d with
    | some unit => readUnits (.ofUnit unit :: before) rest
    | none => none
  | '\\' :: c :: rest =>
    match simpleEscape? c with
    | some c => readUnits (.char c :: before) rest
    | none => none
  | c :: rest => if c.toNat < 0x20 then none else readUnits (.char c :: before) rest
  | [] => none

/-- The characters that units in reverse stand for, in front of those in `behind`. -/
def joinUnits (behind : List Char) : List TextUnit → Option (List Char)
  | [] => some behind
  | .char c :: before => joinUnits (c :: behind) before
  | .half low :: .half high :: before =>
    if isLowSurrogate low && isHighSurrogate high then
      joinUnits (joinSurrogates high low :: behind) before
    else none
  | .half _ :: _ => none

/-- The content of a quoted text whose first quote was read, and the rest. -/
def readQuoted? (s : List Char) : Option (Option String × List Char) :=
  (readUnits [] s).map fun (units, rest) => ((joinUnits [] units).map String.ofList, rest)

theorem length_lt_of_readUnits {before : List TextUnit} {s : List Char}
    {x : List TextUnit × List Char} (h : readUnits before s = some x) : x.2.length < s.length := by
  fun_induction readUnits before s with
  | case1 => simp_all [← Option.some.inj h]
  | case2 before a b c d rest unit hUnit ih =>
    have := ih h
    simp only [List.length_cons]
    omega
  | case3 => simp at h
  | case4 before c rest _ c' hEscape ih =>
    have := ih h
    simp only [List.length_cons]
    omega
  | case5 => simp at h
  | case6 => simp at h
  | case7 before c rest _ _ _ _ ih =>
    have := ih h
    simp only [List.length_cons]
    omega
  | case8 => simp at h

theorem length_lt_of_readQuoted? {s : List Char} {x : Option String × List Char}
    (h : readQuoted? s = some x) : x.2.length < s.length := by
  obtain ⟨y, hy, rfl⟩ := Option.map_eq_some_iff.1 h
  exact length_lt_of_readUnits hy

/-! ## Numbers -/

def isDigit (c : Char) : Bool := '0' ≤ c && c ≤ '9'

/-- The fraction of a number: none if there is no point, and at least one digit behind it. -/
def readFraction? : List Char → Option (Option (List Char) × List Char)
  | '.' :: s =>
    if (s.takeWhile isDigit).isEmpty then none
    else some (some (s.takeWhile isDigit), s.dropWhile isDigit)
  | s => some (none, s)

/-- The digits of an exponent, with its sign. -/
def readPower? (negative : Bool) (s : List Char) : Option (Option Int × List Char) :=
  let digits := s.takeWhile isDigit
  let size : Int := digits.foldl (fun n c => n * 10 + Numeral.digitValue c) 0
  if digits.isEmpty then none
  else some (some (if negative then -size else size), s.dropWhile isDigit)

/-- The exponent of a number: none if there is no `e`. -/
def readExponent? : List Char → Option (Option Int × List Char)
  | 'e' :: s | 'E' :: s =>
    match s with
    | '+' :: s => readPower? false s
    | '-' :: s => readPower? true s
    | s => readPower? false s
  | s => some (none, s)

/-- The whole part of a number, which has no zero in front. -/
def readWhole? (s : List Char) : Option (List Char × List Char) :=
  match s.takeWhile isDigit with
  | [] => none
  | ['0'] => some (['0'], s.dropWhile isDigit)
  | '0' :: _ => none
  | digits => some (digits, s.dropWhile isDigit)

/-- A number without its sign, and the rest. -/
def readNumeral? (negative : Bool) (s : List Char) : Option (Numeral × List Char) := do
  let (whole, s) ← readWhole? s
  let (fraction, s) ← readFraction? s
  let (exponent, s) ← readExponent? s
  some (⟨negative, whole, fraction, exponent⟩, s)

theorem length_dropWhile_le (p : Char → Bool) (s : List Char) :
    (s.dropWhile p).length ≤ s.length :=
  (List.dropWhile_sublist p).length_le

theorem length_lt_of_readWhole? {s : List Char} {x : List Char × List Char}
    (h : readWhole? s = some x) : x.2.length < s.length := by
  have hs : (s.takeWhile isDigit).length + (s.dropWhile isDigit).length = s.length := by
    rw [← List.length_append, List.takeWhile_append_dropWhile]
  simp only [readWhole?] at h
  split at h
  · simp at h
  · next hd =>
    rw [← Option.some.inj h]
    simp only [hd, List.length_cons] at hs ⊢
    omega
  · simp at h
  · next hne _ _ =>
    rw [← Option.some.inj h]
    have := List.length_pos_iff.2 hne
    show (s.dropWhile isDigit).length < s.length
    omega

theorem length_le_of_readFraction? {s : List Char} {x : Option (List Char) × List Char}
    (h : readFraction? s = some x) : x.2.length ≤ s.length := by
  simp only [readFraction?] at h
  split at h
  · next s =>
    split at h
    · simp at h
    · rw [← Option.some.inj h]
      have := length_dropWhile_le isDigit s
      simp only [List.length_cons]
      omega
  · cases h
    exact Nat.le_refl _

theorem length_le_of_readPower? {negative : Bool} {s : List Char} {x : Option Int × List Char}
    (h : readPower? negative s = some x) : x.2.length ≤ s.length := by
  simp only [readPower?] at h
  split at h
  · simp at h
  · rw [← Option.some.inj h]
    exact length_dropWhile_le isDigit s

theorem length_le_of_readExponent? {s : List Char} {x : Option Int × List Char}
    (h : readExponent? s = some x) : x.2.length ≤ s.length := by
  simp only [readExponent?] at h
  split at h
  all_goals first
    | (split at h <;> have := length_le_of_readPower? h <;>
        simp only [List.length_cons] at * <;> omega)
    | (cases h; exact Nat.le_refl _)

theorem length_lt_of_readNumeral? {negative : Bool} {s : List Char} {x : Numeral × List Char}
    (h : readNumeral? negative s = some x) : x.2.length < s.length := by
  simp only [readNumeral?, Option.bind_eq_bind, Option.bind_eq_some_iff] at h
  obtain ⟨⟨whole, s1⟩, h1, ⟨fraction, s2⟩, h2, ⟨exponent, s3⟩, h3, h⟩ := h
  rw [← Option.some.inj h]
  have h1 := length_lt_of_readWhole? h1
  have h2 := length_le_of_readFraction? h2
  have h3 := length_le_of_readExponent? h3
  simp only at *
  omega

/-! ## Values -/

/-- What was read of a value, and the rest behind it, which is shorter than `limit`. There is none
if the text breaks off in the value. -/
structure Progress (limit : List Char) where
  reading : Reading
  rest : Option { rest : List Char // rest.length < limit.length }

namespace Progress

/-- The text breaks off here. -/
def stop {limit : List Char} (reading : Reading) : Progress limit := ⟨reading, none⟩

/-- The value is read. -/
def go {limit : List Char} (reading : Reading) (rest : List Char)
    (h : rest.length < limit.length) : Progress limit :=
  ⟨reading, some ⟨rest, h⟩⟩

end Progress

def isBlank (c : Char) : Bool := c == ' ' || c == '\n' || c == '\t' || c == '\r'

def skipBlanks (s : List Char) : List Char := s.dropWhile isBlank

theorem length_skipBlanks_le (s : List Char) : (skipBlanks s).length ≤ s.length :=
  length_dropWhile_le isBlank s

/-- A number whose sign was read. -/
def readNumber (negative : Bool) (s limit : List Char) (h : s.length ≤ limit.length) :
    Progress limit :=
  match hs : readNumeral? negative s with
  | some (t, rest) => .go (.number t.value?) rest
      (Nat.lt_of_lt_of_le (length_lt_of_readNumeral? hs) h)
  | none => .stop .broken

/-- A value that is neither an array nor an object. -/
def readScalar (s limit : List Char) (h : s.length ≤ limit.length) : Progress limit :=
  match s with
  | 'n' :: 'u' :: 'l' :: 'l' :: rest => .go .null rest (by simp at h; omega)
  | 't' :: 'r' :: 'u' :: 'e' :: rest => .go (.bool true) rest (by simp at h; omega)
  | 'f' :: 'a' :: 'l' :: 's' :: 'e' :: rest => .go (.bool false) rest (by simp at h; omega)
  | '"' :: s =>
    match hs : readQuoted? s with
    | some (content, rest) => .go (.text content) rest (by
        have := length_lt_of_readQuoted? hs
        simp at h this
        omega)
    | none => .stop .broken
  | '-' :: s => readNumber true s limit (by simp at h; omega)
  | s => readNumber false s limit h

mutual

/-- A value with blanks in front. -/
def readValue (s limit : List Char) (h : s.length ≤ limit.length) : Progress limit :=
  match hs : skipBlanks s with
  | '[' :: s1 =>
    match h1 : skipBlanks s1 with
    | ']' :: rest => .go (.array [] true) rest (by
        have := length_skipBlanks_le s
        have := length_skipBlanks_le s1
        simp [hs, h1] at *
        omega)
    | _ => readItems [] s1 limit (by
        have := length_skipBlanks_le s
        simp [hs] at this
        omega)
  | '\x7b' :: s1 =>
    match h1 : skipBlanks s1 with
    | '\x7d' :: rest => .go (.object [] true) rest (by
        have := length_skipBlanks_le s
        have := length_skipBlanks_le s1
        simp [hs, h1] at *
        omega)
    | _ => readMembers [] s1 limit (by
        have := length_skipBlanks_le s
        simp [hs] at this
        omega)
  | s1 => readScalar s1 limit (by
        have := length_skipBlanks_le s
        simp [hs] at this
        omega)
termination_by (s.length, 0)
decreasing_by
  all_goals
    have := length_skipBlanks_le s
    simp [hs] at this
    exact Prod.Lex.left _ _ (by omega)

/-- The items of an array from one on, behind those in `before`, which are in reverse. -/
def readItems (before : List Reading) (s limit : List Char) (h : s.length ≤ limit.length) :
    Progress limit :=
  match readValue s s (Nat.le_refl _) with
  | ⟨item, none⟩ => .stop (.array (item :: before).reverse false)
  | ⟨item, some ⟨s1, h1⟩⟩ =>
    match hs : skipBlanks s1 with
    | ',' :: s2 => readItems (item :: before) s2 limit (by
        have := length_skipBlanks_le s1
        simp [hs] at this
        omega)
    | ']' :: rest => .go (.array (item :: before).reverse true) rest (by
        have := length_skipBlanks_le s1
        simp [hs] at this
        omega)
    | _ => .stop (.array (item :: before).reverse false)
termination_by (s.length, 1)
decreasing_by
  · exact Prod.Lex.right _ (by omega)
  · have := length_skipBlanks_le s1
    simp [hs] at this
    exact Prod.Lex.left _ _ (by omega)

/-- The members of an object from one on, behind those in `before`, which are in reverse. -/
def readMembers (before : List (Option String × Reading)) (s limit : List Char)
    (h : s.length ≤ limit.length) : Progress limit :=
  match hs : skipBlanks s with
  | '"' :: s1 =>
    match h1 : readQuoted? s1 with
    | none => .stop (.object before.reverse false)
    | some (name, s2) =>
      match h2 : skipBlanks s2 with
      | ':' :: s3 =>
        match readValue s3 s3 (Nat.le_refl _) with
        | ⟨value, none⟩ => .stop (.object ((name, value) :: before).reverse false)
        | ⟨value, some ⟨s4, h4⟩⟩ =>
          match h5 : skipBlanks s4 with
          | ',' :: s5 => readMembers ((name, value) :: before) s5 limit (by
              have := length_skipBlanks_le s
              have := length_lt_of_readQuoted? h1
              have := length_skipBlanks_le s2
              have := length_skipBlanks_le s4
              simp [hs, h2, h5] at *
              omega)
          | '\x7d' :: rest => .go (.object ((name, value) :: before).reverse true) rest (by
              have := length_skipBlanks_le s
              have := length_lt_of_readQuoted? h1
              have := length_skipBlanks_le s2
              have := length_skipBlanks_le s4
              simp [hs, h2, h5] at *
              omega)
          | _ => .stop (.object ((name, value) :: before).reverse false)
      | _ => .stop (.object ((name, .broken) :: before).reverse false)
  | _ => .stop (.object before.reverse false)
termination_by (s.length, 1)
decreasing_by
  · have := length_skipBlanks_le s
    have := length_lt_of_readQuoted? h1
    have := length_skipBlanks_le s2
    simp [hs, h2] at *
    exact Prod.Lex.left _ _ (by omega)
  · have := length_skipBlanks_le s
    have := length_lt_of_readQuoted? h1
    have := length_skipBlanks_le s2
    have := length_skipBlanks_le s4
    simp [hs, h2, h5] at *
    exact Prod.Lex.left _ _ (by omega)

end

/-- What was read of a text, and whether nothing but blanks comes after the value. -/
def Reading.ofText (text : String) : Reading × Bool :=
  match readValue text.toList text.toList (Nat.le_refl _) with
  | ⟨reading, none⟩ => (reading, false)
  | ⟨reading, some ⟨rest, _⟩⟩ => (reading, (skipBlanks rest).isEmpty)

end CodeGraph.Json

import CodeGraph.Toml.Basic

/-!
# Numbers, dates and times in TOML

Between two digits of a number there may be an underscore. An integer has 64 bits; a number with a
fraction or an exponent is rounded to the nearest floating point number, and must not be beyond the
greatest of those. Dates and times are checked against the calendar, and then nobody asks for them.
-/

namespace CodeGraph.Toml

def isDigit (c : Char) : Bool := '0' ≤ c && c ≤ '9'

def isHexDigit (c : Char) : Bool :=
  isDigit c || ('a' ≤ c && c ≤ 'f') || ('A' ≤ c && c ≤ 'F')

def isOctalDigit (c : Char) : Bool := '0' ≤ c && c ≤ '7'

def isBinaryDigit (c : Char) : Bool := c == '0' || c == '1'

/-- The digits from here on, without the underscores between them. -/
def readDigitsOn (isDigit : Char → Bool) : Reader (List Char)
  | '_' :: c :: rest =>
    if isDigit c then (readDigitsOn isDigit rest).map fun (ds, rest) => (c :: ds, rest) else none
  | c :: rest =>
    if c == '_' then none
    else if isDigit c then
      (readDigitsOn isDigit rest).map fun (ds, rest) => (c :: ds, rest)
    else some ([], c :: rest)
  | [] => some ([], [])

/-- One or more digits. -/
def readDigits (isDigit : Char → Bool) : Reader (List Char)
  | c :: rest =>
    if isDigit c then (readDigitsOn isDigit rest).map fun (ds, rest) => (c :: ds, rest) else none
  | [] => none

/-- A sign, if there is one: whether it is a minus. -/
def readSign : List Char → Bool × List Char
  | '+' :: rest => (false, rest)
  | '-' :: rest => (true, rest)
  | s => (false, s)

/-- The sign and the digits of a decimal integer, which has no zero in front. -/
def readDecimal : Reader (Bool × List Char) := fun s =>
  let (negative, s) := readSign s
  match s with
  | '0' :: rest => some ((negative, ['0']), rest)
  | s => (readDigits isDigit s).map fun (ds, rest) => ((negative, ds), rest)

/-- The number that digits spell. -/
def numberOf (base : Nat) (digits : List Char) : Nat :=
  digits.foldl (fun n c =>
    n * base + (if isDigit c then c.toNat - '0'.toNat
      else if 'a' ≤ c then c.toNat - 'a'.toNat + 10 else c.toNat - 'A'.toNat + 10)) 0

/-- An integer, if 64 bits are enough. -/
def integer? (negative : Bool) (n : Nat) : Option Value :=
  if negative then if n ≤ 1 <<< 63 then some (.integer (Int64.ofInt (-n))) else none
  else if n < 1 <<< 63 then some (.integer (Int64.ofNat n)) else none

/-- An integer in another base, behind its mark. -/
def readBased (isDigit : Char → Bool) (base : Nat) : Reader Value := fun s => do
  let (ds, rest) ← readDigits isDigit s
  let value ← integer? false (numberOf base ds)
  some (value, rest)

def readInteger : Reader Value
  | '0' :: 'x' :: rest => readBased isHexDigit 16 rest
  | '0' :: 'o' :: rest => readBased isOctalDigit 8 rest
  | '0' :: 'b' :: rest => readBased isBinaryDigit 2 rest
  | s => do
    let ((negative, ds), rest) ← readDecimal s
    let value ← integer? negative (numberOf 10 ds)
    some (value, rest)

/-- An exponent. -/
def readExponent : Reader Int
  | c :: rest =>
    if c == 'e' || c == 'E' then
      let (negative, rest) := readSign rest
      (readDigits isDigit rest).map fun (ds, rest) =>
        let n : Int := numberOf 10 ds
        (if negative then -n else n, rest)
    else none
  | [] => none

/-- The digits behind a point. -/
def readFraction : Reader (List Char)
  | '.' :: rest => readDigits isDigit rest
  | _ => none

/-- The number nearest to `digits · 10 ^ exponent`. Only a negative one may be too large. -/
def float? (negative : Bool) (digits : Nat) (exponent : Int) : Option Value :=
  match Magnitude.ofDecimal? digits exponent with
  | some x => some (.float (.finite negative x))
  | none => if negative then some (.float (.infinite true)) else none

/-- An infinite number or none at all, with a sign. -/
def readSpecial : Reader Value := fun s =>
  match readSign s with
  | (negative, 'i' :: 'n' :: 'f' :: rest) => some (.float (.infinite negative), rest)
  | (_, 'n' :: 'a' :: 'n' :: rest) => some (.float .nan, rest)
  | _ => none

/-- A number with a fraction, an exponent, or both. -/
def readFractional : Reader Value := fun s => do
  let ((negative, whole), s) ← readDecimal s
  match readOpt readFraction s, s with
  | (some fraction, rest), _ =>
    let (exponent, rest) := readOpt readExponent rest
    let value ← float? negative (numberOf 10 (whole ++ fraction))
      (exponent.getD 0 - fraction.length)
    some (value, rest)
  | (none, _), s => do
    let (exponent, rest) ← readExponent s
    let value ← float? negative (numberOf 10 whole) exponent
    some (value, rest)

/-! ## Dates and times -/

/-- A number of exactly `count` digits from `least` to `greatest`. -/
def readCount (count least greatest : Nat) : Reader Nat := fun s =>
  let ds := s.take count
  let n := numberOf 10 ds
  if ds.length = count ∧ ds.all isDigit ∧ least ≤ n ∧ n ≤ greatest then some (n, s.drop count)
  else none

def isLeapYear (year : Nat) : Bool := year % 4 == 0 && (year % 100 != 0 || year % 400 == 0)

def daysOfMonth (year month : Nat) : Nat :=
  if month = 2 then if isLeapYear year then 29 else 28
  else if month = 4 ∨ month = 6 ∨ month = 9 ∨ month = 11 then 30
  else 31

/-- A date: year, month and day. -/
def readDate : Reader Unit := fun s => do
  let (year, s) ← readCount 4 0 9999 s
  let (month, s) ← readCount 2 1 12 (← readChar '-' s)
  let (day, s) ← readCount 2 1 31 (← readChar '-' s)
  if day ≤ daysOfMonth year month then some ((), s) else none

/-- Parts of a second, if there are any. -/
def readSecondParts : List Char → Option (List Char)
  | '.' :: rest => if (rest.takeWhile isDigit).isEmpty then none else some (rest.dropWhile isDigit)
  | s => some s

/-- A time: hour, minute and second. -/
def readTime : Reader Unit := fun s => do
  let (_, s) ← readCount 2 0 23 s
  let (_, s) ← readCount 2 0 59 (← readChar ':' s)
  let (_, s) ← readCount 2 0 60 (← readChar ':' s)
  some ((), (readSecondParts s).getD s)

/-- The distance from universal time, if there is one. -/
def readOffset : List Char → Option (List Char)
  | 'Z' :: rest | 'z' :: rest => some rest
  | '+' :: rest | '-' :: rest => do
    let (_, s) ← readCount 2 0 23 rest
    let (_, s) ← readCount 2 0 59 (← readChar ':' s)
    some s
  | s => some s

/-- The time behind a date, if there is one. -/
def readTimeOfDay (s : List Char) : Option (List Char) :=
  match s with
  | c :: rest =>
    if c == 'T' || c == 't' || c == ' ' then
      match readTime rest with
      | some ((), rest) => readOffset rest
      | none => some s
    else some s
  | [] => some []

/-- A date with or without a time, or a time alone. -/
def readMoment : Reader Value := fun s =>
  match readDate s with
  | some ((), rest) => (readTimeOfDay rest).map (.moment, ·)
  | none => (readTime s).map fun ((), rest) => (.moment, rest)

/-- A number, a date or a time. -/
def readNumber : Reader Value := fun s =>
  readMoment s <|> readFractional s <|> readSpecial s <|> readInteger s

end CodeGraph.Toml

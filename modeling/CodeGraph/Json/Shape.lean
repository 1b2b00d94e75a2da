import CodeGraph.Json.Reading
import CodeGraph.Mismatch
import CodeGraph.Record

/-!
# The shape of JSON data

What was read is checked against the wanted shape from front to back, and the first offence is
reported: a `Mismatch`, or the place from which the text is no JSON. A structure is an object of
its fields or an array of them in order. Arrays and objects lie in each other at most `maxDepth`
deep, except in fields that nobody asked for.
-/

namespace CodeGraph.Json

/-- Why a text does not give the wanted data. -/
inductive Offence
  /-- The text is no JSON, or holds a value that cannot be represented. -/
  | malformed
  | mismatch (m : Mismatch)
  deriving DecidableEq, Inhabited

/-- How deep arrays and objects may lie in each other. -/
def maxDepth : Nat := 127

/-- A number as a report shows it. -/
def Number.found : Number → Found
  | natural n => .integer n.toNat
  | negative n => .integer n.toInt
  | fraction x => .fraction (floatStyle.write x)

namespace Reading

mutual

/-- Whether a value was read to its end, be it of any meaning. -/
def isWhole : Reading → Bool
  | broken => false
  | array items closed => closed && areWhole items
  | object members closed => closed && membersWhole members
  | _ => true

def areWhole : List Reading → Bool
  | [] => true
  | item :: items => item.isWhole && areWhole items

def membersWhole : List (Option String × Reading) → Bool
  | [] => true
  | (_, value) :: members => value.isWhole && membersWhole members

end

mutual

/-- Whether a value was read to its end, all in it can be represented, and it needs at most `room`
levels. -/
def isSound (room : Nat) : Reading → Bool
  | null | bool _ => true
  | number value => value.isSome
  | text content => content.isSome
  | array items closed => 0 < room && closed && areSound (room - 1) items
  | object members closed => 0 < room && closed && membersSound (room - 1) members
  | broken => false

def areSound (room : Nat) : List Reading → Bool
  | [] => true
  | item :: items => item.isSound room && areSound room items

def membersSound (room : Nat) : List (Option String × Reading) → Bool
  | [] => true
  | (name, value) :: members => name.isSome && value.isSound room && membersSound room members

end

/-- The offence of a value that is not what was expected. -/
def refuse (r : Reading) (expected : String) : Offence :=
  match r with
  | null => .mismatch (.wrongType .null expected)
  | bool b => .mismatch (.wrongType (.bool b) expected)
  | number (some n) => .mismatch (.wrongType n.found expected)
  | text (some s) => .mismatch (.wrongType (.text s) expected)
  | array _ _ => .mismatch (.wrongType .sequence expected)
  | object _ _ => .mismatch (.wrongType .map expected)
  | number none | text none | broken => .malformed

/-- A natural number below `bound`, of the type called `expected`. -/
def natural (bound : Nat) (expected : String) : Reading → Except Offence Nat
  | number (some (.natural n)) =>
    if n.toNat < bound then .ok n.toNat
    else .error (.mismatch (.wrongValue (.integer n.toNat) expected))
  | number (some (.negative n)) => .error (.mismatch (.wrongValue (.integer n.toInt) expected))
  | other => .error (other.refuse expected)

/-- A text. -/
def string : Reading → Except Offence String
  | text (some s) => .ok s
  | other => .error (other.refuse "a string")

/-- An array in which every item has a shape. -/
def items {α : Type} (depth : Nat) (item : Reading → Except Offence α) :
    Reading → Except Offence (List α)
  | array items closed =>
    if depth < maxDepth then do
      let values ← items.mapM item
      if closed then .ok values else .error .malformed
    else .error .malformed
  | other => .error (other.refuse "a sequence")

/-- An object in which every member has a shape. The last of several members of one name stays. -/
def members {α : Type} (depth : Nat) (value : Reading → Except Offence α) :
    Reading → Except Offence (Record α)
  | object members closed =>
    if depth < maxDepth then do
      let record ← members.foldlM (fun (record : Record α) (name, r) =>
        match name with
        | some name => (value r).map (record.insert name)
        | none => .error .malformed) ∅
      if closed then .ok record else .error .malformed
    else .error .malformed
  | other => .error (other.refuse "a map")

end Reading

/-! ## Structures -/

/-- A field of a structure `α`: its name, and how what was read changes the structure. -/
structure Field (α : Type) where
  name : String
  read : Reading → Except Offence (α → α)
  /-- Whether the field may be left out. -/
  optional : Bool

namespace Reading

variable {α : Type}

/-- Takes up one member of an object. `seen` are the names of the fields so far. -/
def takeMember (fields : List (Field α)) (state : List String × α)
    (member : Option String × Reading) : Except Offence (List String × α) :=
  match member.1 with
  | none => .error .malformed
  | some name =>
    match fields.find? (·.name == name) with
    | some field =>
      if state.1.contains name then .error (.mismatch (.duplicateField name))
      else (field.read member.2).map fun change => (name :: state.1, change state.2)
    | none => if member.2.isWhole then .ok state else .error .malformed

/-- Takes up the items of an array, of which `count` were before, for the fields in order. -/
def takeItems (title : String) (closed : Bool) (count : Nat) (value : α) :
    List (Field α) → List Reading → Except Offence α
  | [], items => if closed && items.isEmpty then .ok value else .error .malformed
  | field :: fields, item :: items => do
    let change ← field.read item
    takeItems title closed (count + 1) (change value) fields items
  | field :: fields, [] =>
    if !closed then .error .malformed
    else if field.optional then takeItems title closed count value fields []
    else .error (.mismatch (.tooShort count title))

/-- A structure, which is `start` before any field is read. -/
def fields (depth : Nat) (name : String) (fields : List (Field α)) (start : α) :
    Reading → Except Offence α
  | object members closed =>
    if depth < maxDepth then do
      let (seen, value) ← members.foldlM (takeMember fields) ([], start)
      if !closed then .error .malformed
      else
        match fields.find? fun field => !field.optional && !seen.contains field.name with
        | some field => .error (.mismatch (.missingField field.name))
        | none => .ok value
    else .error .malformed
  | array items closed =>
    if depth < maxDepth then
      takeItems s!"struct {name} with {fields.length} elements" closed 0 start fields items
    else .error .malformed
  | other => .error (other.refuse s!"struct {name}")

/-- The data in a text, which has nothing else in it. -/
def decode (shape : Reading → Except Offence α) (text : String) : Except Offence α := do
  let (reading, ended) := ofText text
  let value ← shape reading
  if ended then .ok value else .error .malformed

end Reading

end CodeGraph.Json

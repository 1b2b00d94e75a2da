import CodeGraph.Toml.Basic

/-!
# Tables under construction

A TOML document makes its tables piece by piece: by the header of a table, by a header below it, and
by dotted keys. What may still be added to a table depends on how it was made. `Table.insert` adds
the value of a key, and a `Draft` takes up the headers of a document: each begins a new current
table, and the one before is put to its place.
-/

namespace CodeGraph.Toml

mutual

/-- What a key leads to in a table under construction. -/
inductive Item
  | value (v : Value)
  | table (t : Table)
  /-- The tables of an array, the first first. -/
  | tables (ts : List Table)

/-- A table under construction. -/
inductive Table
  /-- The entries in order; whether the table has no header of its own yet, and whether dotted keys
  made it. -/
  | mk (entries : List (String × Item)) (implied dotted : Bool)

end

instance : Inhabited Table := ⟨.mk [] false false⟩

instance : Inhabited Item := ⟨.table default⟩

namespace Table

def entries : Table → List (String × Item)
  | mk entries _ _ => entries

def implied : Table → Bool
  | mk _ implied _ => implied

def dotted : Table → Bool
  | mk _ _ dotted => dotted

/-- A table without entries. -/
def empty : Table := default

def find? (t : Table) (key : String) : Option Item := t.entries.lookup key

/-- Gives a key an item: in the place of the one before, or at the end. -/
def putEntry (key : String) (item : Item) : List (String × Item) → List (String × Item)
  | [] => [(key, item)]
  | (other, old) :: rest =>
    if other = key then (key, item) :: rest else (other, old) :: putEntry key item rest

def put (t : Table) (key : String) (item : Item) : Table :=
  mk (putEntry key item t.entries) t.implied t.dotted

def erase (t : Table) (key : String) : Table :=
  mk (t.entries.filter (·.1 != key)) t.implied t.dotted

/-- The table under its own header. -/
def declared (t : Table) : Table := mk t.entries false false

/-- Changes the table that a path of keys leads to. Tables on the way that are missing are implied.
A path of dotted keys does not lead through tables with headers. -/
def change {α : Type} (dotted : Bool) (f : Table → Option (α × Table)) :
    List String → Table → Option (α × Table)
  | [], t => f t
  | key :: path, t =>
    match t.find? key with
    | none => do
      let (x, inner) ← change dotted f path (mk [] true dotted)
      some (x, t.put key (.table inner))
    | some (.value _) => none
    | some (.table inner) =>
      if dotted && !inner.implied then none
      else do
        let (x, inner) ← change dotted f path inner
        some (x, t.put key (.table inner))
    | some (.tables ts) => do
      let (x, inner) ← change dotted f path (← ts.getLast?)
      some (x, t.put key (.tables (ts.dropLast ++ [inner])))

/-- Adds a value under a new key. The table must have been made in the way that the path to it
says. -/
def addValue (byDots : Bool) (key : String) (v : Value) (t : Table) : Option (Unit × Table) :=
  if t.dotted = byDots ∧ (t.find? key).isNone then some ((), t.put key (.value v)) else none

/-- Adds the value of a key with dots. -/
def insert (t : Table) (path : List String) (v : Value) : Option Table := do
  let key ← path.getLast?
  let path := path.dropLast
  let ((), t) ← change true (addValue (!path.isEmpty) key v) path t
  some t

end Table

/-! ## Values -/

mutual

/-- What an item says. -/
def Item.toValue : Item → Value
  | .value v => v
  | .table t => t.toValue
  | .tables ts => .array (tableValues ts)

/-- What a table says. -/
def Table.toValue : Table → Value
  | .mk entries _ _ => .table (entryValues entries)

def tableValues : List Table → List Value
  | [] => []
  | t :: ts => t.toValue :: tableValues ts

def entryValues : List (String × Item) → List (String × Value)
  | [] => []
  | (key, item) :: rest => (key, item.toValue) :: entryValues rest

end

/-! ## Documents -/

/-- A document under construction. -/
structure Draft where
  root : Table
  /-- The table of the last header, which is not at its place yet. -/
  current : Table
  /-- The keys of the last header. -/
  path : List String
  /-- Whether the last header adds a table to an array. -/
  inArray : Bool
  deriving Inhabited

namespace Draft

def empty : Draft := ⟨.empty, .empty, [], false⟩

/-- Puts a table under a key that is new, or leads to a table without a header. -/
def placeTable (key : String) (table parent : Table) : Option (Unit × Table) :=
  match parent.find? key with
  | none => some ((), parent.put key (.table table))
  | some (.table t) => if t.implied then some ((), parent.put key (.table table)) else none
  | some _ => none

/-- Appends a table to the array under a key. -/
def placeInArray (key : String) (table parent : Table) : Option (Unit × Table) :=
  match parent.find? key with
  | none => some ((), parent.put key (.tables [table]))
  | some (.tables ts) => some ((), parent.put key (.tables (ts ++ [table])))
  | some _ => none

/-- Puts the current table to its place. -/
def finish (d : Draft) : Option Table :=
  match d.path.getLast? with
  | none => some d.current
  | some key => do
    let place := if d.inArray then placeInArray key d.current else placeTable key d.current
    let ((), root) ← Table.change false place d.path.dropLast d.root
    some root

/-- Takes a table without a header out of the place that it is to have a header for. -/
def takeTable (key : String) (parent : Table) : Option (Table × Table) :=
  match parent.find? key with
  | none => some (.empty, parent)
  | some (.table t) =>
    if t.implied && !t.dotted then some (t.declared, parent.erase key) else none
  | some _ => none

/-- Makes sure that there is an array under a key. -/
def takeArray (key : String) (parent : Table) : Option (Table × Table) :=
  match parent.find? key with
  | none => some (.empty, parent.put key (.tables []))
  | some (.tables _) => some (.empty, parent)
  | some _ => none

/-- Takes up a header. -/
def header (d : Draft) (path : List String) (inArray : Bool) : Option Draft := do
  let root ← d.finish
  let key ← path.getLast?
  let take := if inArray then takeArray key else takeTable key
  let (current, root) ← Table.change false take path.dropLast root
  some ⟨root, current, path, inArray⟩

/-- Takes up a value in the current table. -/
def insert (d : Draft) (path : List String) (v : Value) : Option Draft :=
  (d.current.insert path v).map fun current => { d with current }

end Draft

end CodeGraph.Toml

/-!
# Records

A `Record α` is a finite map from names to values that keeps its entries sorted by name, so that
two records with the same entries are equal and walking one walks the names in order. `insert`
replaces the value of a name that is there already.
-/

namespace CodeGraph

namespace Record

variable {α : Type}

/-- Entries in strictly ascending order of names. -/
def Ascending (entries : List (String × α)) : Prop :=
  entries.Pairwise fun a b => a.1 < b.1

/-- Puts an entry at its place, in exchange for the one of the same name. -/
def insertEntry (name : String) (value : α) : List (String × α) → List (String × α)
  | [] => [(name, value)]
  | (other, old) :: rest =>
    if name < other then (name, value) :: (other, old) :: rest
    else if name = other then (name, value) :: rest
    else (other, old) :: insertEntry name value rest

theorem fst_of_mem_insertEntry {name : String} {value : α} {entries : List (String × α)}
    {e : String × α} (h : e ∈ insertEntry name value entries) :
    e = (name, value) ∨ e ∈ entries := by
  induction entries with
  | nil => simpa [insertEntry] using h
  | cons head rest ih =>
    obtain ⟨other, old⟩ := head
    simp only [insertEntry] at h
    split at h
    · simpa using h
    · split at h
      · rcases List.mem_cons.1 h with h | h
        · exact .inl h
        · exact .inr (List.mem_cons_of_mem _ h)
      · rcases List.mem_cons.1 h with h | h
        · exact .inr (h ▸ List.mem_cons_self)
        · exact (ih h).imp id (List.mem_cons_of_mem _)

theorem lt_of_not_lt_of_ne {a b : String} (h : ¬ a < b) (hne : a ≠ b) : b < a := by
  by_cases hba : b < a
  · exact hba
  · exact absurd (String.le_antisymm (String.not_lt.1 hba) (String.not_lt.1 h)) hne

theorem ascending_insertEntry (name : String) (value : α) {entries : List (String × α)}
    (h : Ascending entries) : Ascending (insertEntry name value entries) := by
  induction entries with
  | nil => simp [insertEntry, Ascending]
  | cons head rest ih =>
    obtain ⟨other, old⟩ := head
    obtain ⟨hHead, hRest⟩ := List.pairwise_cons.1 h
    simp only [insertEntry]
    split
    · next hlt =>
      refine List.pairwise_cons.2 ⟨fun e he => ?_, h⟩
      rcases List.mem_cons.1 he with rfl | he
      · exact hlt
      · exact String.lt_trans hlt (hHead e he)
    · next hnlt =>
      split
      · next heq =>
        subst heq
        exact List.pairwise_cons.2 ⟨hHead, hRest⟩
      · next hne =>
        refine List.pairwise_cons.2 ⟨fun e he => ?_, ih hRest⟩
        rcases fst_of_mem_insertEntry he with rfl | he
        · exact lt_of_not_lt_of_ne hnlt hne
        · exact hHead e he

end Record

/-- A finite map from names to values, sorted by name. -/
structure Record (α : Type) where
  entries : List (String × α)
  ascending : Record.Ascending entries

namespace Record

variable {α : Type}

instance [DecidableEq α] : DecidableEq (Record α) := fun a b =>
  if h : a.entries = b.entries then isTrue (by cases a; cases b; simp_all)
  else isFalse fun e => h (congrArg _ e)

def empty : Record α := ⟨[], List.Pairwise.nil⟩

instance : EmptyCollection (Record α) := ⟨empty⟩

instance : Inhabited (Record α) := ⟨empty⟩

def insert (r : Record α) (name : String) (value : α) : Record α :=
  ⟨insertEntry name value r.entries, ascending_insertEntry name value r.ascending⟩

def get? (r : Record α) (name : String) : Option α :=
  (r.entries.find? (·.1 == name)).map (·.2)

/-- Changes the value of `name`, which is `fallback` when there is none yet. -/
def update (r : Record α) (name : String) (fallback : α) (f : α → α) : Record α :=
  r.insert name (f ((r.get? name).getD fallback))

/-- Inserts the entries from left to right, so that the last value of a name stays. -/
def ofList (entries : List (String × α)) : Record α :=
  entries.foldl (fun r e => r.insert e.1 e.2) ∅

end Record

end CodeGraph

import CodeGraph.Record

/-!
# What a record is made of

A record made of a list has only names of the list, and made of its own entries it is itself. To
`erase` a name undoes whatever was inserted under it. An insertion changes what is found under its
name only (`get?_insert`).
-/

namespace CodeGraph.Record

variable {α : Type}

theorem fst_mem_of_mem_insert {r : Record α} {name : String} {value : α} {e : String × α}
    (h : e ∈ (r.insert name value).entries) : e.1 = name ∨ e ∈ r.entries :=
  (fst_of_mem_insertEntry h).imp (congrArg Prod.fst) id

theorem fst_mem_of_mem_foldl_insert {β : Type} (value : β → α) {entries : List (String × β)}
    {r : Record α} {e : String × α}
    (h : e ∈ (entries.foldl (fun r x => r.insert x.1 (value x.2)) r).entries) :
    e ∈ r.entries ∨ e.1 ∈ entries.map (·.1) := by
  induction entries generalizing r with
  | nil => exact .inl h
  | cons entry rest ih =>
    rw [List.map_cons, List.mem_cons]
    rcases ih h with h | h
    · exact (fst_mem_of_mem_insert h).elim (.inr ∘ .inl) .inl
    · exact .inr (.inr h)

theorem fst_mem_of_mem_ofList {entries : List (String × α)} {e : String × α}
    (h : e ∈ (ofList entries).entries) : e.1 ∈ entries.map (·.1) :=
  (fst_mem_of_mem_foldl_insert id h).resolve_left List.not_mem_nil

/-! ## Making a record of its entries -/

theorem insertEntry_of_forall_lt {name : String} {value : α} {entries : List (String × α)}
    (h : ∀ e ∈ entries, e.1 < name) :
    insertEntry name value entries = entries ++ [(name, value)] := by
  induction entries with
  | nil => rfl
  | cons head rest ih =>
    obtain ⟨other, old⟩ := head
    have hlt : other < name := h _ List.mem_cons_self
    unfold insertEntry
    rw [if_neg (String.lt_asymm hlt), if_neg (Ne.symm (String.ne_of_lt hlt)),
      ih fun e he => h e (List.mem_cons_of_mem _ he), List.cons_append]

theorem eq_of_entries {r s : Record α} (h : r.entries = s.entries) : r = s := by
  cases r
  cases s
  cases h
  rfl

theorem entries_foldl_insert {entries : List (String × α)} {r : Record α}
    (h : Ascending (r.entries ++ entries)) :
    (entries.foldl (fun r e => r.insert e.1 e.2) r).entries = r.entries ++ entries := by
  induction entries generalizing r with
  | nil => rw [List.foldl_nil, List.append_nil]
  | cons entry rest ih =>
    have hlt : ∀ e ∈ r.entries, e.1 < entry.1 := fun e he =>
      (List.pairwise_append.1 h).2.2 e he entry List.mem_cons_self
    have hinsert : (r.insert entry.1 entry.2).entries = r.entries ++ [entry] :=
      insertEntry_of_forall_lt hlt
    rw [List.append_cons, ← hinsert] at h ⊢
    exact ih h

theorem ofList_entries (r : Record α) : ofList r.entries = r :=
  eq_of_entries (entries_foldl_insert (r := ∅) r.ascending)

/-! ## Erasing a name -/

/-- The record without an entry of a name. -/
def erase (r : Record α) (name : String) : Record α :=
  ⟨r.entries.filter (·.1 != name), r.ascending.filter _⟩

theorem filter_insertEntry (name : String) (value : α) (entries : List (String × α)) :
    (insertEntry name value entries).filter (·.1 != name) = entries.filter (·.1 != name) := by
  induction entries with
  | nil => simp [insertEntry]
  | cons head rest ih =>
    obtain ⟨other, old⟩ := head
    unfold insertEntry
    by_cases hlt : name < other
    · rw [if_pos hlt, List.filter_cons_of_neg (by simp)]
    · rw [if_neg hlt]
      by_cases heq : name = other
      · subst heq
        rw [if_pos rfl, List.filter_cons_of_neg (by simp), List.filter_cons_of_neg (by simp)]
      · rw [if_neg heq, List.filter_cons_of_pos (by simpa using Ne.symm heq),
          List.filter_cons_of_pos (by simpa using Ne.symm heq), ih]

theorem erase_insert (r : Record α) (name : String) (value : α) :
    (r.insert name value).erase name = r.erase name := by
  unfold erase insert
  simp only [filter_insertEntry]

theorem erase_of_forall_ne {r : Record α} {name : String} (h : ∀ e ∈ r.entries, e.1 ≠ name) :
    r.erase name = r := by
  have hall : r.entries.filter (·.1 != name) = r.entries := by
    rw [List.filter_eq_self]
    intro e he
    simpa using h e he
  unfold erase
  simp only [hall]

/-! ## Looking up -/

theorem get?_insert (r : Record α) (name other : String) (value : α) :
    (r.insert name value).get? other = if name = other then some value else r.get? other := by
  have hfind : ∀ entries : List (String × α),
      (insertEntry name value entries).find? (·.1 == other) =
        if name = other then some (name, value) else entries.find? (·.1 == other) := by
    intro entries
    induction entries with
    | nil => by_cases heq : name = other <;> simp [insertEntry, heq]
    | cons head rest ih =>
      rw [insertEntry]
      split
      · by_cases heq : name = other <;> simp [heq]
      · split
        · next hsame =>
          by_cases heq : name = other
          · simp [heq]
          · simp [heq, ← hsame]
        · next hne =>
          rw [List.find?_cons, List.find?_cons, ih]
          by_cases heq : name = other
          · have hskip : (head.1 == other) = false := by simpa [← heq] using Ne.symm hne
            rw [hskip, if_pos heq]
          · rw [if_neg heq, if_neg heq]
  rw [get?, insert, hfind]
  split
  · rfl
  · rfl

theorem get?_eq_none {r : Record α} {name : String} (h : ∀ e ∈ r.entries, e.1 ≠ name) :
    r.get? name = none := by
  rw [get?, Option.map_eq_none_iff, List.find?_eq_none]
  exact fun e he heq => h e he (beq_iff_eq.1 heq)

theorem get?_eq_some_iff {r : Record α} {name : String} {value : α} :
    r.get? name = some value ↔ (name, value) ∈ r.entries := by
  suffices h : ∀ entries : List (String × α), Ascending entries →
      ((entries.find? (·.1 == name)).map (·.2) = some value ↔ (name, value) ∈ entries) from
    h r.entries r.ascending
  intro entries hascending
  induction entries with
  | nil => simp
  | cons entry rest ih =>
    obtain ⟨hfirst, hrest⟩ := List.pairwise_cons.1 hascending
    rw [List.find?_cons, List.mem_cons]
    by_cases heq : entry.1 = name
    · have hlater : (name, value) ∉ rest := fun hmem =>
        String.ne_of_lt (hfirst _ hmem) heq
      have hfound : (entry.1 == name) = true := by simpa using heq
      rw [hfound]
      simp only [hlater, or_false, Option.map_some, Option.some.injEq, Prod.ext_iff, heq,
        true_and, eq_comm]
    · have hskip : (entry.1 == name) = false := by simpa using heq
      have hother : (name, value) ≠ entry := fun hsame => heq (by rw [← hsame])
      rw [hskip, ih hrest]
      simp [hother]

theorem get?_foldl_insert {β : Type} (value : β → α) {entries : List (String × β)}
    (h : Ascending entries) (r : Record α) (name : String) :
    (entries.foldl (fun r e => r.insert e.1 (value e.2)) r).get? name =
      ((entries.find? (·.1 == name)).map fun e => value e.2).or (r.get? name) := by
  induction entries generalizing r with
  | nil => rfl
  | cons entry rest ih =>
    obtain ⟨hfirst, hrest⟩ := List.pairwise_cons.1 h
    rw [List.foldl_cons, ih hrest, get?_insert, List.find?_cons]
    by_cases heq : entry.1 = name
    · have hnone : rest.find? (·.1 == name) = none := by
        rw [List.find?_eq_none]
        intro e he hname
        exact String.ne_of_lt (hfirst e he) (heq.trans (beq_iff_eq.1 hname).symm)
      simp [heq, hnone]
    · have hskip : (entry.1 == name) = false := by simpa using heq
      rw [hskip, if_neg heq]

theorem get?_foldl_insert_of_ne {entries : List (String × α)} {name : String}
    (h : ∀ e ∈ entries, e.1 ≠ name) (r : Record α) :
    (entries.foldl (fun r e => r.insert e.1 e.2) r).get? name = r.get? name := by
  induction entries generalizing r with
  | nil => rfl
  | cons entry rest ih =>
    obtain ⟨hentry, hrest⟩ := List.forall_mem_cons.1 h
    rw [List.foldl_cons, ih hrest, get?_insert, if_neg hentry]

theorem get?_ofList_of_ne (front back : List (String × α)) {name : String}
    (hfront : ∀ e ∈ front, e.1 ≠ name) (hback : ∀ e ∈ back, e.1 ≠ name) (value : Option α) :
    (ofList (front ++ value.toList.map (name, ·) ++ back)).get? name = value := by
  rw [ofList, List.foldl_append, get?_foldl_insert_of_ne hback, List.foldl_append]
  cases value with
  | none => exact get?_foldl_insert_of_ne hfront _
  | some value =>
    rw [Option.toList_some, List.map_singleton, List.foldl_cons, List.foldl_nil, get?_insert,
      if_pos rfl]

/-- Of a record that is made from entries, each of those has its value whose name is not given
again. -/
theorem get?_ofList_append {front back : List (String × α)} (hnodup : (front.map Prod.fst).Nodup)
    (hback : ∀ e ∈ back, e.1 ∉ front.map Prod.fst) {e : String × α} (he : e ∈ front) :
    (ofList (front ++ back)).get? e.1 = some e.2 := by
  obtain ⟨before, after, rfl⟩ := List.append_of_mem he
  rw [List.map_append, List.map_cons, List.perm_middle.nodup_iff, List.nodup_cons,
    List.mem_append] at hnodup
  have hsplit : before ++ e :: after ++ back =
      before ++ (some e.2).toList.map (e.1, ·) ++ (after ++ back) := by simp
  rw [hsplit]
  refine get?_ofList_of_ne _ _ (fun b hb heq => ?_) (fun b hb heq => ?_) _
  · exact hnodup.1 (.inl (heq ▸ List.mem_map_of_mem hb))
  · rcases List.mem_append.1 hb with hb | hb
    · exact hnodup.1 (.inr (heq ▸ List.mem_map_of_mem hb))
    · exact hback b hb (heq ▸ List.mem_map_of_mem he)

end CodeGraph.Record

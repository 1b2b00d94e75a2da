import CodeGraph.Proofs.Json.Number
import CodeGraph.Proofs.Json.Quoted
import Mathlib.Data.Nat.Init

/-!
# Written values read back

What is written of a value whose integers fit into 64 bits is read as that value, whatever comes
behind but more of a number (`readsBack_of_fits`). The induction is over the value; within an array
or an object, it is along its items or members, behind those that were read already.
-/

namespace CodeGraph.Json

/-! ## What a value is read as -/

mutual

/-- What is read where a value was written. -/
def reading : Json → Reading
  | int n =>
    .number (some (if n < 0 then .negative (Int64.ofInt n) else .natural (UInt64.ofNat n.toNat)))
  | text s => .text (some s)
  | array items => .array (readings items) true
  | object members => .object (memberReadings members) true

def readings : List Json → List Reading
  | [] => []
  | item :: items => item.reading :: readings items

def memberReadings : List (String × Json) → List (Option String × Reading)
  | [] => []
  | (name, value) :: members => (some name, value.reading) :: memberReadings members

end

theorem readings_eq_map (items : List Json) : readings items = items.map reading := by
  induction items with
  | nil => rw [readings, List.map_nil]
  | cons item items ih => rw [readings, ih, List.map_cons]

theorem memberReadings_eq_map (members : List (String × Json)) :
    memberReadings members = members.map fun e => (some e.1, e.2.reading) := by
  induction members with
  | nil => rw [memberReadings, List.map_nil]
  | cons member members ih => rw [memberReadings, ih, List.map_cons]

/-- All integers in a value have 64 bits, with or without a sign. -/
inductive Fits : Json → Prop
  | int {n : Int} (low : -((1 <<< 63 : Nat) : Int) ≤ n) (high : n < UInt64.size) : Fits (.int n)
  | text (s : String) : Fits (.text s)
  | array {items : List Json} (h : ∀ item ∈ items, Fits item) : Fits (.array items)
  | object {members : List (String × Json)} (h : ∀ e ∈ members, Fits e.2) : Fits (.object members)

/-- A value was read, with a rest behind it. -/
structure Progress.Gives {limit : List Char} (p : Progress limit) (r : Reading)
    (rest : List Char) : Prop where
  reading : p.reading = r
  rest : p.rest.map (·.val) = some rest

theorem Progress.gives_go {limit : List Char} (r : Reading) (rest : List Char)
    (h : rest.length < limit.length) : (go r rest h).Gives r rest := ⟨rfl, rfl⟩

/-- What is written of a value is read as it, at any level and before any rest. -/
def ReadsBack (j : Json) : Prop :=
  ∀ (level : Nat) (s rest limit : List Char) (h : s.length ≤ limit.length), EndsNumber rest →
    skipBlanks s = j.write level ++ rest → (readValue s limit h).Gives j.reading rest

/-! ## Blanks -/

theorem skipBlanks_cons {c : Char} (h : isBlank c = false) (s : List Char) :
    skipBlanks (c :: s) = c :: s := by
  unfold skipBlanks
  rw [List.dropWhile_cons_of_neg (by simp [h])]

theorem skipBlanks_newLine (level : Nat) (s : List Char) :
    skipBlanks (newLine level ++ s) = skipBlanks s := by
  unfold skipBlanks newLine
  apply List.dropWhile_append_of_pos
  intro c hc
  rcases List.mem_cons.1 hc with rfl | hc
  · rfl
  · rw [List.eq_of_mem_replicate hc]
    rfl

theorem endsNumber_cons {c : Char} (h : isDigit c = false ∧ c ≠ '.' ∧ c ≠ 'e' ∧ c ≠ 'E')
    (s : List Char) : EndsNumber (c :: s) := by
  intro d t heq
  cases heq
  exact h

theorem endsNumber_newLine (level : Nat) (s : List Char) : EndsNumber (newLine level ++ s) :=
  endsNumber_cons (by decide) _

/-! ## Scalars -/

theorem isBlank_of_isDigit {c : Char} (h : isDigit c = true) : isBlank c = false := by
  rw [Bool.eq_false_iff]
  intro hblank
  have hcases : ((c = ' ' ∨ c = '\n') ∨ c = '\t') ∨ c = '\r' := by simpa [isBlank] using hblank
  rcases hcases with ((rfl | rfl) | rfl) | rfl <;> exact absurd h (by decide)

theorem toList_toString_ofNat (n : Nat) :
    (toString (Int.ofNat n)).toList = Nat.toDigits 10 n :=
  Nat.toList_repr

theorem toList_toString_negSucc (n : Nat) :
    (toString (Int.negSucc n)).toList = '-' :: Nat.toDigits 10 (n + 1) := by
  change ("-" ++ Nat.repr (n + 1)).toList = _
  rw [String.toList_append, Nat.toList_repr]
  rfl

theorem readNumber_gives {negative : Bool} {s rest : List Char} {t : Numeral}
    (hs : readNumeral? negative s = some (t, rest)) {limit : List Char}
    (h : s.length ≤ limit.length) :
    (readNumber negative s limit h).Gives (.number t.value?) rest := by
  unfold readNumber
  split
  · next t' rest' hs' =>
    rw [hs, Option.some.injEq, Prod.mk.injEq] at hs'
    obtain ⟨rfl, rfl⟩ := hs'
    exact Progress.gives_go ..
  · next hnone =>
    rw [hs] at hnone
    cases hnone

theorem readScalar_of_isDigit {c : Char} (hc : isDigit c = true) {s limit : List Char}
    (h : (c :: s).length ≤ limit.length) :
    readScalar (c :: s) limit h = readNumber false (c :: s) limit h := by
  unfold readScalar
  split
  all_goals first
    | rfl
    | next heq _ =>
      rw [(List.cons.inj heq).1] at hc
      exact absurd hc (by decide)

variable {limit rest : List Char}

theorem readScalar_digits {n : Nat} (hn : n < UInt64.size) (hrest : EndsNumber rest)
    (h : (Nat.toDigits 10 n ++ rest).length ≤ limit.length) :
    (readScalar (Nat.toDigits 10 n ++ rest) limit h).Gives
      (.number (some (.natural (UInt64.ofNat n)))) rest := by
  have hnumber := readNumber_gives (readNumeral?_digits hrest false n) h
  rw [Numeral.value?_digits hn] at hnumber
  obtain ⟨c, s, hdigits, hc⟩ := exists_toDigits_eq_cons n
  simp only [hdigits, List.cons_append] at hnumber h ⊢
  rwa [readScalar_of_isDigit hc]

theorem readScalar_minus {n : Nat} (hpos : 0 < n) (hn : n ≤ 1 <<< 63) (hrest : EndsNumber rest)
    (h : ('-' :: (Nat.toDigits 10 n ++ rest)).length ≤ limit.length) :
    (readScalar ('-' :: (Nat.toDigits 10 n ++ rest)) limit h).Gives
      (.number (some (.negative (Int64.ofInt (-n))))) rest := by
  have hshort := Nat.le_of_succ_le h
  have hnumber := readNumber_gives (readNumeral?_digits hrest true n) hshort
  rwa [Numeral.value?_digits_negative hpos hn] at hnumber

theorem readScalar_quote (text : String) (h : (quote text ++ rest).length ≤ limit.length) :
    (readScalar (quote text ++ rest) limit h).Gives (.text (some text)) rest := by
  have hquote : quote text ++ rest = '"' :: (text.toList.flatMap escapeChar ++ '"' :: rest) := by
    simp [quote]
  simp only [hquote] at h ⊢
  unfold readScalar
  simp only
  split
  · next content rest' hs =>
    rw [readQuoted?_flatMap_escapeChar, Option.some.injEq, Prod.mk.injEq] at hs
    obtain ⟨rfl, rfl⟩ := hs
    exact Progress.gives_go ..
  · next hnone =>
    rw [readQuoted?_flatMap_escapeChar] at hnone
    cases hnone

/-! ## Arrays and objects -/

theorem exists_write_eq_cons (j : Json) (level : Nat) :
    ∃ c s, j.write level = c :: s ∧ isBlank c = false ∧ c ≠ ']' := by
  cases j with
  | int n =>
    rw [write]
    cases n with
    | ofNat k =>
      obtain ⟨c, s, hdigits, hc⟩ := exists_toDigits_eq_cons k
      refine ⟨c, s, (toList_toString_ofNat k).trans hdigits, isBlank_of_isDigit hc, ?_⟩
      rintro rfl
      exact absurd hc (by decide)
    | negSucc k => exact ⟨'-', _, toList_toString_negSucc k, rfl, by decide⟩
  | text text => exact ⟨'"', _, by rw [write, quote]; rfl, rfl, by decide⟩
  | array items =>
    cases items with
    | nil => exact ⟨'[', _, by rw [write], rfl, by decide⟩
    | cons item items => exact ⟨'[', _, by rw [write]; rfl, rfl, by decide⟩
  | object members =>
    cases members with
    | nil => exact ⟨'\x7b', _, by rw [write], rfl, by decide⟩
    | cons member members => exact ⟨'\x7b', _, by rw [write]; rfl, rfl, by decide⟩

theorem skipBlanks_newLine_write (j : Json) (outer level : Nat) (s : List Char) :
    skipBlanks (newLine outer ++ (j.write level ++ s)) = j.write level ++ s := by
  obtain ⟨c, t, hwrite, hblank, -⟩ := j.exists_write_eq_cons level
  rw [skipBlanks_newLine, hwrite, List.cons_append, skipBlanks_cons hblank]

theorem Progress.Gives.eq_mk {p : Progress limit} {r : Reading} (h : p.Gives r rest) :
    ∃ hlt, p = ⟨r, some ⟨rest, hlt⟩⟩ := by
  obtain ⟨reading, found⟩ := p
  obtain ⟨rfl, hrest⟩ := h
  obtain ⟨⟨s, hlt⟩, hfound, rfl⟩ := Option.map_eq_some_iff.1 hrest
  cases hfound
  exact ⟨hlt, rfl⟩

/-- After an item, an array ends or goes on behind a comma. -/
theorem readItems_gives {before : List Reading} {s next : List Char} {r x : Reading}
    (hv : (readValue s s (Nat.le_refl _)).Gives r next)
    (hnext : (skipBlanks next = ']' :: rest ∧ x = .array (r :: before).reverse true) ∨
      ∃ s', skipBlanks next = ',' :: s' ∧
        ∀ h, (readItems (r :: before) s' limit h).Gives x rest)
    (h : s.length ≤ limit.length) : (readItems before s limit h).Gives x rest := by
  obtain ⟨hlt, hread⟩ := hv.eq_mk
  rw [readItems.eq_def, hread]
  simp only
  rcases hnext with ⟨hclose, rfl⟩ | ⟨s', hcomma, hlater⟩
  · split
    · next heq => cases heq.symm.trans hclose
    · next heq =>
      obtain ⟨-, rfl⟩ := List.cons.inj (heq.symm.trans hclose)
      exact Progress.gives_go ..
    · next hnot => exact absurd hclose (hnot _)
  · split
    · next heq =>
      obtain ⟨-, rfl⟩ := List.cons.inj (heq.symm.trans hcomma)
      exact hlater _
    · next heq => cases heq.symm.trans hcomma
    · next hnot _ => exact absurd hcomma (hnot _)

theorem readItems_write {items : List Json} {item : Json} (hitem : ReadsBack item)
    (hitems : ∀ i ∈ items, ReadsBack i) (level outer : Nat) (before : List Reading)
    {s : List Char} (h : s.length ≤ limit.length)
    (hs : skipBlanks s =
      item.write level ++ (writeItems level items ++ (newLine outer ++ ']' :: rest))) :
    (readItems before s limit h).Gives
      (.array (before.reverse ++ readings (item :: items)) true) rest := by
  induction items generalizing item before s with
  | nil =>
    rw [writeItems, List.nil_append] at hs
    have hv := hitem level s _ s (Nat.le_refl _) (endsNumber_newLine _ _) hs
    have hclose := (skipBlanks_newLine outer (']' :: rest)).trans (skipBlanks_cons rfl rest)
    refine readItems_gives hv (.inl ⟨hclose, ?_⟩) h
    simp [readings]
  | cons next items ih =>
    rw [writeItems] at hs
    simp only [List.cons_append, List.append_assoc] at hs
    have hv := hitem level s _ s (Nat.le_refl _) (endsNumber_cons (by decide) _) hs
    refine readItems_gives hv (.inr ⟨_, skipBlanks_cons rfl _, fun h' => ?_⟩) h
    have hgives := ih (hitems next List.mem_cons_self)
      (fun i hi => hitems i (List.mem_cons_of_mem _ hi)) (item.reading :: before) h'
      (skipBlanks_newLine_write next level level _)
    rwa [List.reverse_cons, List.append_assoc] at hgives

/-- After a member, an object ends or goes on behind a comma. -/
theorem readMembers_gives {before : List (Option String × Reading)} {s text next : List Char}
    {name : String} {r x : Reading} (hs : skipBlanks s = quote name ++ ':' :: text)
    (hv : (readValue text text (Nat.le_refl _)).Gives r next)
    (hnext : (skipBlanks next = '\x7d' :: rest ∧
        x = .object ((some name, r) :: before).reverse true) ∨
      ∃ s', skipBlanks next = ',' :: s' ∧
        ∀ h, (readMembers ((some name, r) :: before) s' limit h).Gives x rest)
    (h : s.length ≤ limit.length) : (readMembers before s limit h).Gives x rest := by
  obtain ⟨hlt, hread⟩ := hv.eq_mk
  have hquote : skipBlanks s = '"' :: (name.toList.flatMap escapeChar ++ '"' :: ':' :: text) := by
    simp [hs, quote]
  have hname := readQuoted?_flatMap_escapeChar name (':' :: text)
  have hcolon : skipBlanks (':' :: text) = ':' :: text := skipBlanks_cons rfl text
  -- Name and colon are as written, so that only what comes behind the value is open.
  rw [readMembers.eq_def]
  split
  · next s1 heq =>
    obtain rfl := (List.cons.inj (heq.symm.trans hquote)).2
    split
    · next hnone => cases hname.symm.trans hnone
    · next found s2 hsome =>
      obtain ⟨rfl, rfl⟩ := Prod.mk.inj (Option.some.inj (hname.symm.trans hsome))
      split
      · next s3 heq =>
        obtain rfl := (List.cons.inj (heq.symm.trans hcolon)).2
        rw [hread]
        simp only
        rcases hnext with ⟨hclose, rfl⟩ | ⟨s', hcomma, hlater⟩
        · split
          · next heq => cases heq.symm.trans hclose
          · next heq =>
            obtain ⟨-, rfl⟩ := List.cons.inj (heq.symm.trans hclose)
            exact Progress.gives_go ..
          · next hnot => exact absurd hclose (hnot _)
        · split
          · next heq =>
            obtain ⟨-, rfl⟩ := List.cons.inj (heq.symm.trans hcomma)
            exact hlater _
          · next heq => cases heq.symm.trans hcomma
          · next hnot _ => exact absurd hcomma (hnot _)
      · next hnot => exact absurd hcolon (hnot _)
  · next hnot => exact absurd hquote (hnot _)

theorem ReadsBack.behind_blank {j : Json} (hj : ReadsBack j) (level : Nat) {next : List Char}
    (hnext : EndsNumber next) :
    (readValue (' ' :: (j.write level ++ next)) _ (Nat.le_refl _)).Gives j.reading next := by
  refine hj level _ next _ (Nat.le_refl _) hnext ?_
  obtain ⟨c, s, hwrite, hblank, -⟩ := j.exists_write_eq_cons level
  rw [hwrite, List.cons_append]
  exact skipBlanks_cons hblank _

theorem skipBlanks_newLine_quote (level : Nat) (name : String) (s : List Char) :
    skipBlanks (newLine level ++ (quote name ++ s)) = quote name ++ s :=
  (skipBlanks_newLine level _).trans (skipBlanks_cons rfl _)

theorem readMembers_write {members : List (String × Json)} {name : String} {value : Json}
    (hvalue : ReadsBack value) (hmembers : ∀ e ∈ members, ReadsBack e.2) (level outer : Nat)
    (before : List (Option String × Reading)) {s : List Char} (h : s.length ≤ limit.length)
    (hs : skipBlanks s = quote name ++ ':' :: ' ' :: (value.write level ++
      (writeMembers level members ++ (newLine outer ++ '\x7d' :: rest)))) :
    (readMembers before s limit h).Gives
      (.object (before.reverse ++ memberReadings ((name, value) :: members)) true) rest := by
  induction members generalizing name value before s with
  | nil =>
    rw [writeMembers, List.nil_append] at hs
    have hv := hvalue.behind_blank level (endsNumber_newLine outer ('\x7d' :: rest))
    have hclose := (skipBlanks_newLine outer ('\x7d' :: rest)).trans (skipBlanks_cons rfl rest)
    refine readMembers_gives hs hv (.inl ⟨hclose, ?_⟩) h
    simp [memberReadings]
  | cons next members ih =>
    obtain ⟨nextName, nextValue⟩ := next
    rw [writeMembers] at hs
    simp only [List.cons_append, List.append_assoc, List.nil_append] at hs
    have hv := hvalue.behind_blank level (endsNumber_cons (c := ',') (by decide) (newLine level ++
      (quote nextName ++ ':' :: ' ' :: (nextValue.write level ++
        (writeMembers level members ++ (newLine outer ++ '\x7d' :: rest))))))
    refine readMembers_gives hs hv (.inr ⟨_, skipBlanks_cons rfl _, fun h' => ?_⟩) h
    have hgives := ih (hmembers _ List.mem_cons_self)
      (fun e he => hmembers e (List.mem_cons_of_mem _ he)) ((some name, value.reading) :: before) h'
      (skipBlanks_newLine_quote level nextName _)
    rwa [List.reverse_cons, List.append_assoc] at hgives

/-! ## All values -/

theorem readValue_scalar {s s' : List Char} (hs : skipBlanks s = s') (harray : ∀ t, s' ≠ '[' :: t)
    (hobject : ∀ t, s' ≠ '\x7b' :: t) {x : Reading}
    (hscalar : ∀ h, (readScalar s' limit h).Gives x rest) (h : s.length ≤ limit.length) :
    (readValue s limit h).Gives x rest := by
  subst hs
  rw [readValue.eq_def]
  split
  · next s1 heq => exact absurd heq (harray s1)
  · next s1 heq => exact absurd heq (hobject s1)
  · exact hscalar _

theorem readValue_array {s s' : List Char} (hs : skipBlanks s = '[' :: s') {x : Reading}
    (hnext : (skipBlanks s' = ']' :: rest ∧ x = .array [] true) ∨
      (∀ t, skipBlanks s' ≠ ']' :: t) ∧ ∀ h, (readItems [] s' limit h).Gives x rest)
    (h : s.length ≤ limit.length) : (readValue s limit h).Gives x rest := by
  rw [readValue.eq_def]
  split
  · next s1 heq =>
    obtain ⟨-, rfl⟩ := List.cons.inj (heq.symm.trans hs)
    rcases hnext with ⟨hclose, rfl⟩ | ⟨hopen, hitems⟩
    · split
      · next heq =>
        obtain ⟨-, rfl⟩ := List.cons.inj (heq.symm.trans hclose)
        exact Progress.gives_go ..
      · next hnot => exact absurd hclose (hnot _)
    · split
      · next heq => exact absurd heq (hopen _)
      · exact hitems _
  · next heq => cases heq.symm.trans hs
  · next hnot _ => exact absurd hs (hnot _)

theorem readValue_object {s s' : List Char} (hs : skipBlanks s = '\x7b' :: s') {x : Reading}
    (hnext : (skipBlanks s' = '\x7d' :: rest ∧ x = .object [] true) ∨
      (∀ t, skipBlanks s' ≠ '\x7d' :: t) ∧ ∀ h, (readMembers [] s' limit h).Gives x rest)
    (h : s.length ≤ limit.length) : (readValue s limit h).Gives x rest := by
  rw [readValue.eq_def]
  split
  · next heq => cases heq.symm.trans hs
  · next s1 heq =>
    obtain ⟨-, rfl⟩ := List.cons.inj (heq.symm.trans hs)
    rcases hnext with ⟨hclose, rfl⟩ | ⟨hopen, hmembers⟩
    · split
      · next heq =>
        obtain ⟨-, rfl⟩ := List.cons.inj (heq.symm.trans hclose)
        exact Progress.gives_go ..
      · next hnot => exact absurd hclose (hnot _)
    · split
      · next heq => exact absurd heq (hopen _)
      · exact hmembers _
  · next hnot => exact absurd hs (hnot _)

theorem readsBack_int {n : Int} (low : -((1 <<< 63 : Nat) : Int) ≤ n) (high : n < UInt64.size) :
    ReadsBack (int n) := by
  intro level s rest limit h hrest hs
  rw [write] at hs
  cases n with
  | ofNat k =>
    rw [toList_toString_ofNat] at hs
    have hk : k < UInt64.size := Int.ofNat_lt.1 high
    have hhead : ∀ d u, Nat.toDigits 10 k ++ rest = d :: u → isDigit d = true := by
      intro d u heq
      obtain ⟨c, t, hdigits, hc⟩ := exists_toDigits_eq_cons k
      rw [hdigits] at heq
      exact (List.cons.inj heq).1 ▸ hc
    refine readValue_scalar hs (fun t ht => absurd (hhead _ t ht) (by decide))
      (fun t ht => absurd (hhead _ t ht) (by decide)) (fun h' => ?_) h
    have hnonneg : ¬ Int.ofNat k < 0 := Int.not_lt.2 (Int.natCast_nonneg k)
    rw [reading, if_neg hnonneg]
    exact readScalar_digits hk hrest h'
  | negSucc k =>
    rw [toList_toString_negSucc] at hs
    have hk : k + 1 ≤ 1 <<< 63 := by omega
    refine readValue_scalar hs (fun t ht => by cases ht) (fun t ht => by cases ht) (fun h' => ?_) h
    rw [reading, if_pos (Int.negSucc_lt_zero k)]
    exact readScalar_minus (Nat.succ_pos k) hk hrest h'

theorem readsBack_text (content : String) : ReadsBack (text content) := by
  intro level s rest limit h hrest hs
  rw [write] at hs
  refine readValue_scalar hs (fun t ht => by cases ht) (fun t ht => by cases ht) (fun h' => ?_) h
  exact readScalar_quote content h'

theorem readsBack_array {items : List Json} (hitems : ∀ item ∈ items, ReadsBack item) :
    ReadsBack (array items) := by
  intro level s rest limit h hrest hs
  cases items with
  | nil =>
    rw [write] at hs
    exact readValue_array hs (.inl ⟨skipBlanks_cons rfl rest, by rw [reading, readings]⟩) h
  | cons item items =>
    rw [write] at hs
    simp only [List.cons_append, List.append_assoc, List.nil_append] at hs
    have hitem := skipBlanks_newLine_write item (level + 1) (level + 1)
      (writeItems (level + 1) items ++ (newLine level ++ ']' :: rest))
    refine readValue_array hs (.inr ⟨fun t ht => ?_, fun h' => ?_⟩) h
    · obtain ⟨c, u, hwrite, -, hne⟩ := item.exists_write_eq_cons (level + 1)
      rw [hitem, hwrite] at ht
      exact hne (List.cons.inj ht).1
    · exact readItems_write (hitems item List.mem_cons_self)
        (fun i hi => hitems i (List.mem_cons_of_mem _ hi)) (level + 1) level [] h' hitem

theorem readsBack_object {members : List (String × Json)}
    (hmembers : ∀ e ∈ members, ReadsBack e.2) : ReadsBack (object members) := by
  intro level s rest limit h hrest hs
  cases members with
  | nil =>
    rw [write] at hs
    exact readValue_object hs (.inl ⟨skipBlanks_cons rfl rest, by rw [reading, memberReadings]⟩) h
  | cons member members =>
    obtain ⟨name, value⟩ := member
    rw [write] at hs
    simp only [List.cons_append, List.append_assoc, List.nil_append] at hs
    have hmember := skipBlanks_newLine_quote (level + 1) name (':' :: ' ' ::
      (value.write (level + 1) ++ (writeMembers (level + 1) members ++
        (newLine level ++ '\x7d' :: rest))))
    refine readValue_object hs (.inr ⟨fun t ht => ?_, fun h' => ?_⟩) h
    · cases hmember.symm.trans ht
    · exact readMembers_write (hmembers _ List.mem_cons_self)
        (fun e he => hmembers e (List.mem_cons_of_mem _ he)) (level + 1) level [] h' hmember

/-- **Written values read back.** -/
theorem readsBack_of_fits {j : Json} (hj : Fits j) : ReadsBack j := by
  induction hj with
  | int low high => exact readsBack_int low high
  | text content => exact readsBack_text content
  | array _ ih => exact readsBack_array ih
  | object _ ih => exact readsBack_object ih

theorem ofText_toText {j : Json} (hj : Fits j) : Reading.ofText j.toText = (j.reading, true) := by
  have hread := readsBack_of_fits hj 0 j.toText.toList [] j.toText.toList (Nat.le_refl _)
    (fun c s h => by cases h) ?_
  · obtain ⟨hlt, hvalue⟩ := hread.eq_mk
    unfold Reading.ofText
    rw [hvalue]
    rfl
  · obtain ⟨c, s, hwrite, hblank, -⟩ := j.exists_write_eq_cons 0
    rw [toText, String.toList_ofList, List.append_nil, hwrite]
    exact skipBlanks_cons hblank s

end CodeGraph.Json

import CodeGraph.Json.Shape
import CodeGraph.Proofs.Attempt
import CodeGraph.Proofs.Record

/-!
# Data read back

Where the parts of a piece of data are read back from what stands for them, so is the whole: a list
from an array (`items_map`), a record from an object with its entries (`members_entries`) and a
structure from an object with its fields (`fields_filled`).
-/

namespace CodeGraph.Json.Reading

open Attempt

variable {α : Type}

theorem items_map {depth : Nat} (hdepth : depth < maxDepth) {item : Reading → Except Offence α}
    {encode : α → Reading} {xs : List α} (h : ∀ x ∈ xs, item (encode x) = .ok x) :
    items depth item (.array (xs.map encode) true) = .ok xs := by
  unfold items
  simp only [if_pos hdepth, mapM_map_eq_ok h, bind_eq, ok_bind, if_true]

theorem members_entries {depth : Nat} (hdepth : depth < maxDepth)
    {value : Reading → Except Offence α} (encode : α → Reading) (r : Record α)
    (h : ∀ e ∈ r.entries, value (encode e.2) = .ok e.2) :
    members depth value (.object (r.entries.map fun e => (some e.1, encode e.2)) true) =
      .ok r := by
  unfold members
  simp only [if_pos hdepth, List.foldlM_map, bind_eq]
  rw [foldlM_eq_ok_foldl (g := fun record e => record.insert e.1 e.2)]
  · exact congrArg Except.ok r.ofList_entries
  · intro e he record
    simp only [h e he, ok_map]

/-! ## Structures -/

theorem find?_name {fields : List (Field α)} (hnames : (fields.map (·.name)).Nodup)
    {field : Field α} (hfield : field ∈ fields) :
    fields.find? (·.name == field.name) = some field := by
  obtain ⟨before, after, rfl⟩ := List.append_of_mem hfield
  rw [List.map_append, List.nodup_append] at hnames
  rw [List.find?_append, List.find?_eq_none.2, Option.none_or, List.find?_cons_of_pos (by simp)]
  intro other hother heq
  exact hnames.2.2 _ (List.mem_map_of_mem hother) _ (List.mem_map_of_mem List.mem_cons_self)
    (beq_iff_eq.1 heq)

theorem takeMember_eq_ok {fields : List (Field α)} (hnames : (fields.map (·.name)).Nodup)
    {field : Field α} (hfield : field ∈ fields) {seen : List String} (hseen : field.name ∉ seen)
    {r : Reading} {change : α → α} (hread : field.read r = .ok change) (x : α) :
    takeMember fields (seen, x) (some field.name, r) = .ok (field.name :: seen, change x) := by
  unfold takeMember
  simp [find?_name hnames hfield, hseen, hread]

/-- A field together with a member that it can read. -/
structure Filled (α : Type) where
  field : Field α
  reading : Reading
  change : α → α
  read : field.read reading = .ok change

/-- A field that holds what some part of the data is read from. -/
def Filled.ofPart {β : Type} {name : String} {optional : Bool}
    {part : Reading → Except Offence β} {set : β → α → α} {r : Reading} {y : β}
    (h : part r = .ok y) : Filled α :=
  ⟨⟨name, fun r => (part r).map set, optional⟩, r, set y, by simp only [h, ok_map]⟩

def Filled.member (f : Filled α) : Option String × Reading := (some f.field.name, f.reading)

theorem foldlM_takeMember {filled after : List (Filled α)}
    (hnames : (filled.map (·.field.name)).Nodup) (before : List (Filled α))
    (hsplit : filled = before ++ after) (x : α) :
    (after.map Filled.member).foldlM (takeMember (filled.map (·.field)))
        ((before.map (·.field.name)).reverse, x) =
      .ok ((filled.map (·.field.name)).reverse, after.foldl (fun x f => f.change x) x) := by
  induction after generalizing before x with
  | nil =>
    rw [hsplit, List.append_nil]
    rfl
  | cons f rest ih =>
    have hseen : f.field.name ∉ (before.map (·.field.name)).reverse := by
      rw [hsplit, List.map_append, List.nodup_append] at hnames
      intro hmem
      exact hnames.2.2 _ (List.mem_reverse.1 hmem) _ (List.mem_map_of_mem List.mem_cons_self) rfl
    have hfield : f.field ∈ filled.map (·.field) := by
      rw [hsplit]
      exact List.mem_map_of_mem (List.mem_append_right _ List.mem_cons_self)
    have htake := takeMember_eq_ok (by rwa [List.map_map]) hfield hseen f.read x
    have hrest := ih (before ++ [f]) (by rw [hsplit, List.append_cons]) (f.change x)
    rw [List.map_append, List.reverse_append] at hrest
    rw [List.map_cons, List.foldlM_cons, Filled.member, htake, bind_eq, ok_bind, List.foldl_cons]
    exact hrest

/-- A structure whose fields all stand in an object, in order, is what they make of its start. -/
theorem fields_filled {depth : Nat} (hdepth : depth < maxDepth) (title : String)
    (filled : List (Filled α)) (hnames : (filled.map (·.field.name)).Nodup) (start : α) :
    fields depth title (filled.map (·.field)) start (.object (filled.map Filled.member) true) =
      .ok (filled.foldl (fun x f => f.change x) start) := by
  have hmissing : (filled.map (·.field)).find? (fun field =>
      !field.optional && !(filled.map (·.field.name)).reverse.contains field.name) = none := by
    rw [List.find?_eq_none]
    intro field hfield
    obtain ⟨f, hf, rfl⟩ := List.mem_map.1 hfield
    have hseen : f.field.name ∈ (filled.map (·.field.name)).reverse :=
      List.mem_reverse.2 (List.mem_map_of_mem hf)
    simp [-List.mem_reverse, hseen]
  have hall := foldlM_takeMember hnames [] rfl start
  rw [List.map_nil, List.reverse_nil] at hall
  unfold fields
  simp only [if_pos hdepth, hall, bind_eq, ok_bind, hmissing, Bool.not_true, Bool.false_eq_true,
    if_false]

end CodeGraph.Json.Reading

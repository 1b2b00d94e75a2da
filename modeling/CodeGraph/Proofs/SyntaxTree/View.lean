import CodeGraph.Proofs.Ast.Links
import CodeGraph.Proofs.Ast.Numbered
import CodeGraph.Proofs.Attempt
import CodeGraph.Proofs.Record
import CodeGraph.Proofs.SyntaxTree.Regular
import CodeGraph.SyntaxTree.View

/-!
# How a conversion sees a sound syntax tree

The keys of a sound syntax tree are its nodes numbered in pre-order (`Sound.numbered_ast`), each
with one structural entry at most, and the attributes from the source are usable at every node.
-/

namespace CodeGraph.SyntaxTree

open Attempt

variable {t : SyntaxTree}

/-! ## Identities -/

theorem toNat_identity_mod (t : SyntaxTree) (key : Nat) :
    (t.identity key).toNat % UInt32.size = key % UInt32.size := by
  change _ % 2 ^ 32 = _ % 2 ^ 32
  have hhigh : (t.number.toUInt64 <<< 32).toNat % 2 ^ 32 = 0 := by
    rw [UInt64.toNat_shiftLeft, Nat.shiftLeft_eq]
    simp
  have hlow : (UInt32.ofNat key).toUInt64.toNat = key % 2 ^ 32 := by simp
  rw [identity, UInt64.toNat_or, Nat.or_mod_two_pow, hhigh, hlow, Nat.zero_or, Nat.mod_mod]

theorem toNat_identity_div (t : SyntaxTree) (key : Nat) :
    (t.identity key).toNat / UInt32.size = t.number.toNat := by
  change _ / 2 ^ 32 = _
  have hhigh : (t.number.toUInt64 <<< 32).toNat / 2 ^ 32 = t.number.toNat := by
    have hlt := t.number.toNat_lt
    rw [UInt64.toNat_shiftLeft, Nat.shiftLeft_eq]
    simp only [UInt32.toNat_toUInt64]
    have hsmall : t.number.toNat * 2 ^ ((32 : UInt64).toNat % 64) < 2 ^ 64 := by
      change t.number.toNat * 2 ^ 32 < 2 ^ 64
      omega
    rw [Nat.mod_eq_of_lt hsmall]
    exact Nat.mul_div_cancel _ (by decide)
  have hlow : (UInt32.ofNat key).toUInt64.toNat / 2 ^ 32 = 0 := by
    rw [UInt32.toNat_toUInt64]
    exact Nat.div_eq_of_lt (UInt32.ofNat key).toNat_lt
  rw [identity, UInt64.toNat_or, Nat.or_div_two_pow, hhigh, hlow, Nat.or_zero]

/-- An identity tells the number of the tree and the lower half of the key, and nothing else. -/
theorem identity_eq_iff {u : SyntaxTree} {j k : Nat} :
    t.identity j = u.identity k ↔ t.number = u.number ∧ j % UInt32.size = k % UInt32.size := by
  constructor
  · intro h
    refine ⟨UInt32.toNat.inj ?_, ?_⟩
    · rw [← t.toNat_identity_div j, h, toNat_identity_div]
    · rw [← t.toNat_identity_mod j, h, toNat_identity_mod]
  · rintro ⟨hnumber, hkey⟩
    have hlow : UInt32.ofNat j = UInt32.ofNat k := by
      apply UInt32.toNat.inj
      rw [UInt32.toNat_ofNat', UInt32.toNat_ofNat']
      exact hkey
    rw [identity, identity, hnumber, hlow]

theorem identity_injective {j k : Nat} (hj : j < UInt32.size) (hk : k < UInt32.size)
    (h : t.identity j = t.identity k) : j = k := by
  have hkey := (identity_eq_iff.1 h).2
  rwa [Nat.mod_eq_of_lt hj, Nat.mod_eq_of_lt hk] at hkey

/-! ## Nodes -/

theorem node_ast {i : Fin t.size} {x : Node} (hx : t.nodes[i.val]? = some x) :
    t.ast.node i = t.astNode i.val x := by
  obtain ⟨hlt, rfl⟩ := Array.getElem?_eq_some_iff.1 hx
  exact Array.getElem_mapIdx ..

theorem exists_node (i : Fin t.size) : ∃ x, t.nodes[i.val]? = some x :=
  ⟨_, Array.getElem?_eq_getElem i.isLt⟩

theorem identity_ast (i : Fin t.size) : t.ast.identity i = t.identity i.val := by
  obtain ⟨x, hx⟩ := exists_node i
  rw [Ast.identity, node_ast hx, astNode]

theorem text_ast {i : Fin t.size} {x : Node} (hx : t.nodes[i.val]? = some x) :
    t.ast.text i = x.data.text := by
  rw [Ast.text, node_ast hx, astNode]

theorem name?_ast {i : Fin t.size} {x : Node} (hx : t.nodes[i.val]? = some x) :
    t.ast.name? i = x.name? := by
  rw [Ast.name?, node_ast hx, astNode]

theorem parent?_ast {i : Fin t.size} {x : Node} (hx : t.nodes[i.val]? = some x) :
    t.ast.parent? i = x.parent.bind t.nodeName? := by
  rw [Ast.parent?, node_ast hx, astNode]

theorem links_ast {i : Fin t.size} {x : Node} (hx : t.nodes[i.val]? = some x) :
    t.ast.links i = x.links.map fun e => (e.1, e.2.filterMap t.nodeName?) := by
  rw [Ast.links, node_ast hx, astNode]

theorem nodeName?_eq_some_iff {key : Nat} {i : Fin t.size} :
    t.nodeName? key = some i ↔ i.val = key := by
  rw [nodeName?]
  split
  · rw [Option.some.injEq, Fin.ext_iff]
    exact eq_comm
  · next hkey =>
    simp only [reduceCtorEq, false_iff]
    rintro rfl
    exact hkey i.isLt

theorem linked_of_mem_links_ast {i : Fin t.size} {x : Node} (hx : t.nodes[i.val]? = some x)
    {relation : Relation} {found : List (Fin t.size)} (he : (relation, found) ∈ t.ast.links i)
    {j : Fin t.size} (hj : j ∈ found) : Linked x.links relation j.val := by
  rw [links_ast hx] at he
  obtain ⟨e, hmem, heq⟩ := List.mem_map.1 he
  obtain ⟨rfl, rfl⟩ := Prod.mk.inj heq
  obtain ⟨key, hkey, hname⟩ := List.mem_filterMap.1 hj
  obtain rfl := nodeName?_eq_some_iff.1 hname
  exact ⟨e.2, hmem, hkey⟩

theorem mem_links_ast_of_linked {i j : Fin t.size} {x : Node} (hx : t.nodes[i.val]? = some x)
    {relation : Relation} (h : Linked x.links relation j.val) :
    ∃ found, (relation, found) ∈ t.ast.links i ∧ j ∈ found := by
  obtain ⟨targets, he, htarget⟩ := h
  refine ⟨targets.filterMap t.nodeName?, ?_, ?_⟩
  · rw [links_ast hx]
    exact List.mem_map_of_mem he
  · exact List.mem_filterMap.2 ⟨j.val, htarget, nodeName?_eq_some_iff.2 rfl⟩

theorem children_ast {i : Fin t.size} {x : Node} (hx : t.nodes[i.val]? = some x) :
    t.ast.children i = (targets x.links .structural).filterMap t.nodeName? := by
  rw [Ast.children, Ast.related, links_ast hx, targets, List.find?_map]
  change (Option.map _ (Option.map _ (x.links.find? (·.1 == .structural)))).getD [] = _
  cases x.links.find? (·.1 == .structural) <;> rfl

theorem filterMap_nodeName? (p : Nat → Bool) :
    ((List.range t.size).filter p).filterMap t.nodeName? =
      (List.finRange t.size).filter fun i => p i.val := by
  have hrange : List.range t.size = (List.finRange t.size).map Fin.val := by simp
  have hname : t.nodeName? ∘ Fin.val = some := funext fun i => nodeName?_eq_some_iff.2 rfl
  rw [hrange, List.filter_map, List.filterMap_map, hname, List.filterMap_some]
  rfl

/-! ## Sound and regular trees -/

/-- The keys of a sound tree number its nodes in pre-order. -/
theorem Sound.numbered_ast (h : t.Sound) : t.ast.Numbered t.parentKey? where
  distinct i j heq := by
    rw [identity_ast, identity_ast] at heq
    exact Fin.ext (identity_injective (Nat.lt_of_lt_of_le i.isLt h.small)
      (Nat.lt_of_lt_of_le j.isLt h.small) heq)
  children i := by
    obtain ⟨x, hx⟩ := exists_node i
    rw [children_ast hx, h.children i x hx, keysBelow, filterMap_nodeName?]
  top := h.top
  parents := h.parents
  noReturn := h.noReturn

theorem structuralCount_le_one {i : Fin t.size} {x : Node} (hx : t.nodes[i.val]? = some x)
    (hnodup : (x.links.map (·.1)).Nodup) : t.ast.structuralCount i ≤ 1 := by
  rw [Ast.structuralCount, links_ast hx, List.countP_map]
  exact countP_relation_le_one hnodup .structural

theorem Sound.structuralCount_le_one (h : t.Sound) (i : Fin t.size) :
    t.ast.structuralCount i ≤ 1 := by
  obtain ⟨x, hx⟩ := exists_node i
  exact SyntaxTree.structuralCount_le_one hx (h.oneEntry i x hx)

theorem Regular.isSome_name? (h : t.Regular) {i j : Fin t.size} {found : List (Fin t.size)}
    (he : (.type, found) ∈ t.ast.links i) (hj : j ∈ found) : (t.ast.name? j).isSome := by
  obtain ⟨x, hx⟩ := exists_node i
  obtain ⟨y, hy, hsimple⟩ := h.typed i x hx j (linked_of_mem_links_ast hx he hj)
  rw [name?_ast hy, Node.name?, if_pos hsimple]
  rfl

/-! ## Attributes -/

theorem links?_eq {key : Nat} {x : Node} (hx : t.nodes[key]? = some x)
    (hinside : ∀ relation target, Linked x.links relation target → target < t.size) :
    t.links? key = .ok x.links := by
  have hrange : t.linksInRange x = true := by
    rw [linksInRange, List.all_eq_true]
    intro e he
    rw [List.all_eq_true]
    intro target htarget
    exact decide_eq_true (hinside e.1 target ⟨e.2, he, htarget⟩)
  rw [links?, node?, hx, bind_eq, ok_bind, if_pos hrange]

theorem Sound.links?_eq (h : t.Sound) {key : Nat} {x : Node} (hx : t.nodes[key]? = some x) :
    t.links? key = .ok x.links :=
  SyntaxTree.links?_eq hx (h.inRange key x hx)

theorem Sound.children?_eq (h : t.Sound) {key : Nat} (hkey : key < t.size) :
    t.children? key = .ok (t.keysBelow key) := by
  have hx : t.nodes[key]? = some t.nodes[key] := Array.getElem?_eq_getElem hkey
  rw [children?, related?, h.links?_eq hx, bind_eq, ok_bind]
  exact congrArg Except.ok (h.children key _ hx)

theorem Sound.declaredName?_eq (h : t.Sound) {key : Nat} {x : Node}
    (hx : t.nodes[key]? = some x) : ∃ name, t.declaredName? key = .ok name := by
  rw [declaredName?, childByField?, children?, related?, h.links?_eq hx]
  exact ⟨_, rfl⟩

/-- The names that attributes from the source may have. -/
def sourceNames : List String :=
  ["line", "column", "endLine", "endColumn", "startByte", "endByte", "field", "name", "file"]

theorem fst_mem_take_sourceNames {spans : Bool} {span : Option Span} {field : Option String}
    {e : String × String} (he : e ∈ (if spans then span.elim [] spanAttributes else []) ++
      field.toList.map ("field", ·)) : e.1 ∈ sourceNames.take 7 := by
  rcases List.mem_append.1 he with he | he
  · split at he
    · cases span with
      | none => cases he
      | some s =>
        obtain ⟨entry, hentry, rfl⟩ := List.mem_map.1 he
        have hnames : entry.1 ∈ (sourceNames.take 7).take 6 := List.mem_map_of_mem hentry
        exact List.mem_of_mem_take hnames
    · cases he
  · obtain ⟨_, -, rfl⟩ := List.mem_map.1 he
    simp [sourceNames]

theorem fst_mem_sourceNames {spans top : Bool} {span : Option Span}
    {field name file : Option String} {e : String × String}
    (he : e ∈ (if spans then span.elim [] spanAttributes else []) ++
      field.toList.map ("field", ·) ++ name.toList.map ("name", ·) ++
      if top then file.toList.map ("file", ·) else []) : e.1 ∈ sourceNames := by
  rcases List.mem_append.1 he with he | he
  · rcases List.mem_append.1 he with he | he
    · exact List.mem_of_mem_take (fst_mem_take_sourceNames he)
    · obtain ⟨_, -, rfl⟩ := List.mem_map.1 he
      simp [sourceNames]
  · split at he
    · obtain ⟨_, -, rfl⟩ := List.mem_map.1 he
      simp [sourceNames]
    · cases he

theorem not_mem_reserved_of_mem_sourceNames {name : String} (h : name ∈ sourceNames) :
    name ∉ PropertyName.reserved := by
  have hall : ∀ name ∈ sourceNames, name ∉ PropertyName.reserved := by decide
  exact hall name h

theorem Sound.sourceAttributes_eq (h : t.Sound) (spans : Bool) (i : Fin t.size) :
    ∃ extra, t.sourceAttributes spans i = .ok extra ∧
      ∀ e ∈ extra.entries, e.1 ∉ PropertyName.reserved := by
  obtain ⟨x, hx⟩ := exists_node i
  obtain ⟨name, hname⟩ := h.declaredName?_eq hx
  rw [sourceAttributes, sourceAttributes?, node?, hx, hname]
  refine ⟨_, rfl, fun e he => ?_⟩
  obtain ⟨entry, hentry, heq⟩ := List.mem_map.1 (Record.fst_mem_of_mem_ofList he)
  exact not_mem_reserved_of_mem_sourceNames (heq ▸ fst_mem_sourceNames hentry)

end CodeGraph.SyntaxTree

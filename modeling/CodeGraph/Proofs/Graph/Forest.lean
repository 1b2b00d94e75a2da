import CodeGraph.Graph.Basic
import Mathlib.Data.List.Nodup
import Mathlib.Logic.Relation

/-!
# Forests that are numbered in pre-order

`PreorderForest lo roots hi links` says that the numbers from `lo` on and below `hi` are the nodes
of a forest, numbered in pre-order, with `links` from each node to its children. Each number is once
a root or the end of a link (`PreorderForest.perm`), and what lies below a number are the numbers
that follow it up to some bound (`PreorderForest.exists_size`).
-/

namespace CodeGraph

/-- The forest with certain roots and links, from a first number on and below a last. Behind a root
come the trees of its children, and behind them the other trees. -/
inductive PreorderForest : Nat → List Nat → Nat → List (Nat × Nat) → Prop
  | nil (lo : Nat) : PreorderForest lo [] lo []
  | cons {lo mid hi : Nat} {below rest : List Nat} {inner outer : List (Nat × Nat)}
      (hbelow : PreorderForest (lo + 1) below mid inner)
      (hrest : PreorderForest mid rest hi outer) :
      PreorderForest lo (lo :: rest) hi (below.map (Prod.mk lo) ++ inner ++ outer)

/-- Whether links lead from one number to another. -/
def Leads (links : List (Nat × Nat)) : Nat → Nat → Prop :=
  Relation.ReflTransGen fun v w => (v, w) ∈ links

theorem Leads.mono {links links' : List (Nat × Nat)} (hsub : ∀ e ∈ links, e ∈ links') {v w : Nat}
    (h : Leads links v w) : Leads links' v w :=
  Relation.ReflTransGen.mono (fun x y hlink => hsub (x, y) hlink) v w h

theorem leads_congr {links links' : List (Nat × Nat)} {p : Nat → Prop}
    (hsame : ∀ v w, p v → ((v, w) ∈ links ↔ (v, w) ∈ links'))
    (hclosed : ∀ v w, p v → (v, w) ∈ links' → p w) {v w : Nat} (hv : p v) :
    Leads links v w ↔ Leads links' v w := by
  constructor
  · intro h
    -- What is reached is among the numbers, so that the next link is in both lists.
    suffices hboth : Leads links' v w ∧ p w from hboth.1
    induction h with
    | refl => exact ⟨.refl, hv⟩
    | tail _ hlink ih =>
      have hlink' := (hsame _ _ ih.2).1 hlink
      exact ⟨ih.1.tail hlink', hclosed _ _ ih.2 hlink'⟩
  · intro h
    suffices hboth : Leads links v w ∧ p w from hboth.1
    induction h with
    | refl => exact ⟨.refl, hv⟩
    | tail _ hlink ih => exact ⟨ih.1.tail ((hsame _ _ ih.2).2 hlink), hclosed _ _ ih.2 hlink⟩

namespace PreorderForest

variable {lo hi : Nat} {roots : List Nat} {links : List (Nat × Nat)}

theorem le (h : PreorderForest lo roots hi links) : lo ≤ hi := by
  induction h with
  | nil => omega
  | cons _ _ ihBelow ihRest => omega

theorem append {hi' : Nat} {roots' : List Nat} {links' : List (Nat × Nat)}
    (h : PreorderForest lo roots hi links) (h' : PreorderForest hi roots' hi' links') :
    PreorderForest lo (roots ++ roots') hi' (links ++ links') := by
  induction h with
  | nil => exact h'
  | cons hbelow hrest ihBelow ihRest =>
    rw [List.append_assoc _ _ links']
    exact .cons hbelow (ihRest h')

theorem perm (h : PreorderForest lo roots hi links) :
    (roots ++ links.map Prod.snd).Perm (List.range' lo (hi - lo)) := by
  induction h with
  | nil lo => simp
  | @cons lo mid hi below rest inner outer hbelow hrest ihBelow ihRest =>
    have hleBelow := hbelow.le
    have hleRest := hrest.le
    have hrange : List.range' lo (hi - lo) =
        lo :: (List.range' (lo + 1) (mid - (lo + 1)) ++ List.range' mid (hi - mid)) := by
      have hmid : mid = lo + 1 + (mid - (lo + 1)) := by omega
      rw [show hi - lo = (mid - (lo + 1)) + (hi - mid) + 1 by omega, List.range'_succ,
        List.range'_append_1.symm, ← hmid]
    have hends : (below.map (Prod.mk lo) ++ inner ++ outer).map Prod.snd =
        below ++ inner.map Prod.snd ++ outer.map Prod.snd := by
      simp [Function.comp_def]
    rw [hrange, hends, List.cons_append]
    refine List.Perm.cons lo ?_
    refine List.Perm.trans ?_ (ihBelow.append ihRest)
    rw [← List.append_assoc, ← List.append_assoc (below ++ inner.map Prod.snd)]
    exact List.perm_append_comm.append_right _

theorem length_add (h : PreorderForest lo roots hi links) :
    links.length + roots.length = hi - lo := by
  have hlength := h.perm.length_eq
  rw [List.length_append, List.length_map, List.length_range'] at hlength
  omega

theorem not_mem_ends (h : PreorderForest lo roots hi links) {r : Nat} (hr : r ∈ roots) :
    r ∉ links.map Prod.snd := by
  have hnodup : (roots ++ links.map Prod.snd).Nodup := h.perm.nodup_iff.2 List.nodup_range'
  exact fun hmem => (List.nodup_append.1 hnodup).2.2 r hr r hmem rfl

theorem count_ends (h : PreorderForest lo roots hi links) {v : Nat} (hlo : lo ≤ v) (hhi : v < hi)
    (hroot : v ∉ roots) : (links.map Prod.snd).count v = 1 := by
  have hmem : v ∈ List.range' lo (hi - lo) := by
    rw [List.mem_range'_1]
    omega
  have hcount := h.perm.count_eq v
  rw [List.count_append, List.count_eq_zero.2 hroot, Nat.zero_add,
    List.count_eq_one_of_mem List.nodup_range' hmem] at hcount
  exact hcount

theorem root_bounds (h : PreorderForest lo roots hi links) : ∀ r ∈ roots, lo ≤ r ∧ r < hi := by
  intro r hr
  have hmem := h.perm.mem_iff.1 (List.mem_append_left _ hr)
  rw [List.mem_range'_1] at hmem
  omega

theorem mem_links_cons {below : List Nat} {inner outer : List (Nat × Nat)} {v w : Nat} :
    (v, w) ∈ below.map (Prod.mk lo) ++ inner ++ outer ↔
      (v = lo ∧ w ∈ below) ∨ (v, w) ∈ inner ∨ (v, w) ∈ outer := by
  simp only [List.mem_append, List.mem_map, Prod.mk.injEq, or_assoc]
  refine or_congr_left ⟨?_, ?_⟩
  · rintro ⟨r, hr, rfl, rfl⟩
    exact ⟨rfl, hr⟩
  · rintro ⟨rfl, hw⟩
    exact ⟨w, hw, rfl, rfl⟩

theorem link_bounds (h : PreorderForest lo roots hi links) :
    ∀ v w, (v, w) ∈ links → lo ≤ v ∧ v < w ∧ w < hi := by
  induction h with
  | nil => simp
  | @cons lo mid hi below rest inner outer hbelow hrest ihBelow ihRest =>
    intro v w hlink
    have hleBelow := hbelow.le
    have hleRest := hrest.le
    rcases mem_links_cons.1 hlink with ⟨rfl, hw⟩ | hlink | hlink
    · have hbounds := hbelow.root_bounds w hw
      omega
    · have hbounds := ihBelow v w hlink
      omega
    · have hbounds := ihRest v w hlink
      omega

theorem exists_root (h : PreorderForest lo roots hi links) :
    ∀ w, lo ≤ w → w < hi → ∃ r ∈ roots, Leads links r w := by
  induction h with
  | nil => omega
  | @cons lo mid hi below rest inner outer hbelow hrest ihBelow ihRest =>
    intro w hlo hhi
    by_cases hroot : w = lo
    · subst hroot
      exact ⟨w, List.mem_cons_self, .refl⟩
    by_cases hmid : w < mid
    · obtain ⟨r, hr, hleads⟩ := ihBelow w (by omega) hmid
      refine ⟨lo, List.mem_cons_self, .head (mem_links_cons.2 (.inl ⟨rfl, hr⟩)) ?_⟩
      exact hleads.mono fun e he => by simp [he]
    · obtain ⟨r, hr, hleads⟩ := ihRest w (by omega) hhi
      exact ⟨r, List.mem_cons_of_mem _ hr, hleads.mono fun e he => by simp [he]⟩

section parts

variable {mid : Nat} {below rest : List Nat} {inner outer : List (Nat × Nat)}
  (hbelow : PreorderForest (lo + 1) below mid inner) (hrest : PreorderForest mid rest hi outer)

include hbelow hrest

/-- Below the first root are the numbers before the next. -/
theorem leads_first_iff (w : Nat) :
    Leads (below.map (Prod.mk lo) ++ inner ++ outer) lo w ↔ lo ≤ w ∧ w < mid := by
  have hle := hbelow.le
  constructor
  · intro hleads
    induction hleads with
    | refl => omega
    | @tail x y _ hlink ih =>
      rcases mem_links_cons.1 hlink with ⟨-, hy⟩ | hlink | hlink
      · have hbounds := hbelow.root_bounds y hy
        omega
      · have hbounds := hbelow.link_bounds x y hlink
        omega
      · have hbounds := hrest.link_bounds x y hlink
        omega
  · rintro ⟨hlo, hmid⟩
    by_cases hself : w = lo
    · subst hself
      exact .refl
    · obtain ⟨r, hr, hleads⟩ := hbelow.exists_root w (by omega) hmid
      refine .head (mem_links_cons.2 (.inl ⟨rfl, hr⟩)) (hleads.mono fun e he => ?_)
      simp [he]

/-- From a number below the first root on, the links are those of the trees of its children. -/
theorem leads_inner_iff {v w : Nat} (hlo : lo < v) (hmid : v < mid) :
    Leads (below.map (Prod.mk lo) ++ inner ++ outer) v w ↔ Leads inner v w := by
  refine leads_congr (p := fun x => lo < x ∧ x < mid) (fun x y hx => ?_) (fun x y hx hlink => ?_)
    ⟨hlo, hmid⟩
  · rw [mem_links_cons]
    refine ⟨?_, fun hlink => .inr (.inl hlink)⟩
    rintro (⟨rfl, -⟩ | hlink | hlink)
    · omega
    · exact hlink
    · have hbounds := hrest.link_bounds x y hlink
      omega
  · have hbounds := hbelow.link_bounds x y hlink
    omega

/-- From a number behind the first tree on, the links are those of the other trees. -/
theorem leads_outer_iff {v w : Nat} (hmid : mid ≤ v) :
    Leads (below.map (Prod.mk lo) ++ inner ++ outer) v w ↔ Leads outer v w := by
  have hle := hbelow.le
  refine leads_congr (p := fun x => mid ≤ x) (fun x y hx => ?_) (fun x y hx hlink => ?_) hmid
  · rw [mem_links_cons]
    refine ⟨?_, fun hlink => .inr (.inr hlink)⟩
    rintro (⟨rfl, -⟩ | hlink | hlink)
    · omega
    · have hbounds := hbelow.link_bounds x y hlink
      omega
    · exact hlink
  · have hbounds := hrest.link_bounds x y hlink
    omega

end parts

theorem exists_size (h : PreorderForest lo roots hi links) :
    ∀ v, lo ≤ v → v < hi → ∃ size, ∀ w, Leads links v w ↔ v ≤ w ∧ w < v + size := by
  induction h with
  | nil => omega
  | @cons lo mid hi below rest inner outer hbelow hrest ihBelow ihRest =>
    have hleBelow := hbelow.le
    intro v hlo hhi
    by_cases hroot : v = lo
    · subst hroot
      refine ⟨mid - v, fun w => ?_⟩
      rw [leads_first_iff hbelow hrest]
      omega
    -- Any other number lies in one of the two parts, which no link leaves.
    by_cases hmid : v < mid
    · obtain ⟨size, hsize⟩ := ihBelow v (by omega) hmid
      exact ⟨size, fun w => (leads_inner_iff hbelow hrest (by omega) hmid).trans (hsize w)⟩
    · obtain ⟨size, hsize⟩ := ihRest v (by omega) hhi
      exact ⟨size, fun w => (leads_outer_iff hbelow hrest (by omega)).trans (hsize w)⟩

end PreorderForest

end CodeGraph

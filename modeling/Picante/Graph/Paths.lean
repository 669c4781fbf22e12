/-
# Enumerating simple paths

A depth-first search for all paths from a node to a target that visit no node twice.  A path is the
list of the nodes after the first; a successor that is listed twice makes for two paths.

* `simplePaths next target n seen a` -- the paths of fewer than `n` nodes that leave `seen` alone,
  up to the target.
* `count_simplePaths` -- a list of nodes comes up as often as its edges are listed
  (`multiplicity`) if it is such a path (`SimpleTo`), and not at all otherwise.
* `mem_simplePaths` -- so exactly the paths come up.
-/
import Mathlib.Data.List.Chain
import Mathlib.Data.List.Count
import Mathlib.Data.List.Nodup

namespace Graph

variable {α : Type} [DecidableEq α]

/-- The paths from `a` to the target, the nodes of `seen` being barred. -/
def simplePaths (next : α → List α) (target : α) : Nat → List α → α → List (List α)
  | 0, _, _ => []
  | n + 1, seen, a =>
    if a = target then [[]]
    else if a ∈ seen then []
    else (next a).flatMap fun b => (simplePaths next target n (a :: seen) b).map (b :: ·)

/-- How often the edges of the path from `a` are listed, taken together. -/
def multiplicity (next : α → List α) : α → List α → Nat
  | _, [] => 1
  | a, b :: path => (next a).count b * multiplicity next b path

omit [DecidableEq α] in
/-- The list leads from `a` to the target, visits no node twice, and none of `seen` before its
end. -/
structure SimpleTo (target : α) (seen : List α) (a : α) (path : List α) : Prop where
  ends : (a :: path).getLast? = some target
  nodup : (a :: path).Nodup
  clear : ∀ x ∈ (a :: path).dropLast, x ∉ seen

section paths

variable {next : α → List α} {target a b : α} {seen path : List α}

/-- The edges of a path are all listed. -/
theorem multiplicity_pos :
    0 < multiplicity next a path ↔ List.IsChain (fun a b => b ∈ next a) (a :: path) := by
  induction path generalizing a with
  | nil => simp [multiplicity]
  | cons b path ih =>
    rw [List.isChain_cons_cons, ← ih, multiplicity, ← List.count_pos_iff]
    simp only [Nat.pos_iff_ne_zero, Nat.mul_ne_zero_iff]

/-- What is found from the successors, each put before its own paths. -/
theorem count_extend (found : α → List (List α)) (nodes : List α) :
    (nodes.flatMap fun b => (found b).map (b :: ·)).count (b :: path) =
      nodes.count b * (found b).count path := by
  induction nodes with
  | nil => simp
  | cons c nodes ih =>
    rw [List.flatMap_cons, List.count_append, ih, List.count_cons, Nat.add_mul, Nat.add_comm]
    congr 1
    by_cases hc : c = b
    · subst hc
      rw [List.count_map_of_injective _ _ (List.cons_injective), if_pos (beq_self_eq_true c),
        Nat.one_mul]
    · rw [if_neg (by simpa using hc), Nat.zero_mul, List.count_eq_zero]
      intro hmem
      obtain ⟨_, -, heq⟩ := List.mem_map.mp hmem
      exact hc (List.cons.inj heq).1

omit [DecidableEq α] in
theorem simple_self : SimpleTo target seen target path ↔ path = [] := by
  constructor
  · rintro ⟨hends, hnodup, -⟩
    cases path with
    | nil => rfl
    | cons b path =>
      -- the target would be visited twice
      obtain ⟨hne, -⟩ := List.nodup_cons.mp hnodup
      rw [List.getLast?_cons_cons] at hends
      exact absurd (List.mem_of_getLast? hends) hne
  · rintro rfl
    exact ⟨rfl, List.nodup_singleton _, fun x hx => absurd hx List.not_mem_nil⟩

omit [DecidableEq α] in
theorem not_simple_seen (hne : a ≠ target) (ha : a ∈ seen) : ¬ SimpleTo target seen a path := by
  rintro ⟨hends, -, hclear⟩
  cases path with
  | nil => exact hne (Option.some.inj hends)
  | cons b path => exact hclear a (List.mem_cons_self ..) ha

omit [DecidableEq α] in
theorem not_simple_nil (hne : a ≠ target) : ¬ SimpleTo target seen a [] :=
  fun h => hne (Option.some.inj h.ends)

omit [DecidableEq α] in
/-- A path goes on from its second node, with the first one barred. -/
theorem simple_cons (hne : a ≠ target) (ha : a ∉ seen) :
    SimpleTo target seen a (b :: path) ↔ SimpleTo target (a :: seen) b path := by
  constructor
  · rintro ⟨hends, hnodup, hclear⟩
    obtain ⟨hnew, hrest⟩ := List.nodup_cons.mp hnodup
    refine ⟨List.getLast?_cons_cons.symm.trans hends, hrest, fun x hx hmem => ?_⟩
    rcases List.mem_cons.mp hmem with rfl | hmem
    · exact hnew (List.dropLast_subset _ hx)
    · exact hclear x (List.mem_cons_of_mem _ hx) hmem
  · rintro ⟨hends, hnodup, hclear⟩
    refine ⟨List.getLast?_cons_cons.trans hends, List.nodup_cons.mpr ⟨fun hmem => ?_, hnodup⟩,
      fun x hx hmem => ?_⟩
    · -- the end of the path is the target, and the first node is not
      rw [← List.dropLast_append_getLast? _ hends] at hmem
      rcases List.mem_append.mp hmem with hmem | hmem
      · exact hclear a hmem (List.mem_cons_self ..)
      · exact hne (List.mem_singleton.mp hmem)
    · rcases List.mem_cons.mp hx with rfl | hx
      · exact ha hmem
      · exact hclear x hx (List.mem_cons_of_mem _ hmem)

open Classical in
/-- **Every path comes up as often as its edges are listed**, and nothing else does. -/
theorem count_simplePaths (n : Nat) :
    (simplePaths next target n seen a).count path =
      if path.length < n ∧ SimpleTo target seen a path then multiplicity next a path else 0 := by
  induction n generalizing seen a path with
  | zero => simp [simplePaths]
  | succ n ih =>
    unfold simplePaths
    split
    · next heq =>
      subst heq
      rw [simple_self, List.count_singleton]
      cases path <;> simp [multiplicity]
    · next hne =>
      split
      · next ha =>
        rw [if_neg fun h => not_simple_seen hne ha h.2]
        rfl
      · next ha =>
        cases path with
        | nil =>
          rw [if_neg fun h => not_simple_nil hne h.2, List.count_eq_zero]
          intro hmem
          obtain ⟨b, -, hb⟩ := List.mem_flatMap.mp hmem
          obtain ⟨_, -, heq⟩ := List.mem_map.mp hb
          cases heq
        | cons b path =>
          simp only [count_extend, ih, simple_cons hne ha, List.length_cons, Nat.succ_lt_succ_iff,
            multiplicity]
          split
          · rfl
          · exact Nat.mul_zero _

/-- **The paths come up, and nothing else.** -/
theorem mem_simplePaths {n : Nat} : path ∈ simplePaths next target n seen a ↔
    path.length < n ∧ SimpleTo target seen a path ∧
      List.IsChain (fun a b => b ∈ next a) (a :: path) := by
  classical
  rw [← List.count_pos_iff, count_simplePaths, ← multiplicity_pos]
  split
  · next h => exact ⟨fun hpos => ⟨h.1, h.2, hpos⟩, fun hall => hall.2.2⟩
  · next h =>
      exact ⟨fun hpos => absurd hpos (Nat.lt_irrefl 0), fun hall => absurd ⟨hall.1, hall.2.1⟩ h⟩

end paths

end Graph

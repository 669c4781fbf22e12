/-
# Breadth-first search

A queue of nodes to expand and the nodes seen so far: expanding a node reports the successors
that were not seen before, in order, and appends them to the queue.

* `breadthFirst next n queue seen` -- what is reported in `n` expansions, and `queueAfter` what is
  left in the queue: nothing, once there were as many as there are nodes (`queueAfter_eq_nil`).
* `mem_breadthFirst` -- in a finite graph, with as many expansions as there are nodes, everything
  that can be reached is reported, and nothing else is (`reached_breadthFirst`), nor anything twice
  (`nodup_breadthFirst`).
-/
import Mathlib.Data.Finset.Card
import Mathlib.Logic.Relation

namespace Graph

variable {α : Type} [DecidableEq α]

/-- The elements of a list that are not in `seen`, each the first time it comes up. -/
def unseen (seen : List α) : List α → List α
  | [] => []
  | x :: xs => if x ∈ seen then unseen seen xs else x :: unseen (x :: seen) xs

/-- What is reported in `n` expansions. -/
def breadthFirst (next : α → List α) : Nat → List α → List α → List α
  | 0, _, _ => []
  | _ + 1, [], _ => []
  | n + 1, node :: queue, seen =>
    let new := unseen seen (next node)
    new ++ breadthFirst next n (queue ++ new) (seen ++ new)

/-- What is left in the queue after `n` expansions. -/
def queueAfter (next : α → List α) : Nat → List α → List α → List α
  | 0, queue, _ => queue
  | _ + 1, [], _ => []
  | n + 1, node :: queue, seen =>
    let new := unseen seen (next node)
    queueAfter next n (queue ++ new) (seen ++ new)

section unseen

variable {seen xs : List α} {x : α}

theorem mem_unseen : x ∈ unseen seen xs ↔ x ∈ xs ∧ x ∉ seen := by
  induction xs generalizing seen with
  | nil => simp [unseen]
  | cons y xs ih =>
    unfold unseen
    split
    · next hy =>
      rw [ih]
      constructor
      · rintro ⟨hx, hs⟩
        exact ⟨List.mem_cons_of_mem _ hx, hs⟩
      · rintro ⟨hx, hs⟩
        refine ⟨(List.mem_cons.mp hx).resolve_left ?_, hs⟩
        rintro rfl
        exact hs hy
    · next hy =>
      rw [List.mem_cons, ih]
      constructor
      · rintro (rfl | ⟨hx, hs⟩)
        · exact ⟨List.mem_cons_self .., hy⟩
        · exact ⟨List.mem_cons_of_mem _ hx, fun h => hs (List.mem_cons_of_mem _ h)⟩
      · rintro ⟨hx, hs⟩
        by_cases heq : x = y
        · exact .inl heq
        · refine .inr ⟨(List.mem_cons.mp hx).resolve_left heq, fun h => ?_⟩
          rcases List.mem_cons.mp h with h | h
          · exact heq h
          · exact hs h

theorem nodup_unseen : (unseen seen xs).Nodup := by
  induction xs generalizing seen with
  | nil => exact List.nodup_nil
  | cons y xs ih =>
    unfold unseen
    split
    · exact ih
    · refine List.nodup_cons.mpr ⟨fun h => ?_, ih⟩
      exact (mem_unseen.mp h).2 (List.mem_cons_self ..)

end unseen

section search

variable {next : α → List α} {U : Finset α} {n : Nat} {queue seen : List α} {x y : α}

/-- Expanding a node takes as much from the nodes that are left as it adds to the queue. -/
theorem card_unseen (hU : ∀ a, ∀ b ∈ next a, b ∈ U) (seen : List α) (a : α) :
    (unseen seen (next a)).length + (U \ (seen ++ unseen seen (next a)).toFinset).card =
      (U \ seen.toFinset).card := by
  have hnew : (unseen seen (next a)).toFinset ⊆ U \ seen.toFinset := by
    intro b hb
    obtain ⟨hmem, hns⟩ := mem_unseen.mp (List.mem_toFinset.mp hb)
    exact Finset.mem_sdiff.mpr ⟨hU a b hmem, fun h => hns (List.mem_toFinset.mp h)⟩
  have hrest : U \ (seen ++ unseen seen (next a)).toFinset =
      (U \ seen.toFinset) \ (unseen seen (next a)).toFinset := by
    rw [List.toFinset_append]
    exact sdiff_sdiff_left.symm
  rw [hrest, ← List.toFinset_card_of_nodup nodup_unseen]
  have hle := Finset.card_le_card hnew
  rw [Finset.card_sdiff_of_subset hnew]
  omega

/-- **The search ends with a set that is closed**: whatever was seen or is reported has all its
successors among what was seen and what is reported, if that was so of what is not in the queue. -/
theorem closed_breadthFirst (hU : ∀ a, ∀ b ∈ next a, b ∈ U)
    (hn : queue.length + (U \ seen.toFinset).card ≤ n)
    (hseen : ∀ a ∈ seen, a ∈ queue ∨ ∀ b ∈ next a, b ∈ seen)
    (hx : x ∈ seen ++ breadthFirst next n queue seen) (hy : y ∈ next x) :
    y ∈ seen ++ breadthFirst next n queue seen := by
  induction n generalizing queue seen with
  | zero =>
    have hempty : queue = [] := List.eq_nil_of_length_eq_zero (by omega)
    simp only [breadthFirst, List.append_nil] at hx ⊢
    rcases hseen x hx with h | h
    · simp [hempty] at h
    · exact h y hy
  | succ n ih =>
    cases queue with
    | nil =>
      simp only [breadthFirst, List.append_nil] at hx ⊢
      exact (hseen x hx).resolve_left List.not_mem_nil y hy
    | cons node queue =>
      simp only [breadthFirst] at hx ⊢
      rw [← List.append_assoc] at hx ⊢
      refine ih ?_ (fun a ha => ?_) hx
      · have hcard := card_unseen hU seen node
        simp only [List.length_cons, List.length_append] at hn ⊢
        omega
      · rcases List.mem_append.mp ha with ha | ha
        · rcases hseen a ha with h | h
          · rcases List.mem_cons.mp h with rfl | h
            · -- the node that was expanded
              refine .inr fun b hb => List.mem_append.mpr ?_
              by_cases hs : b ∈ seen
              · exact .inl hs
              · exact .inr (mem_unseen.mpr ⟨hb, hs⟩)
            · exact .inl (List.mem_append_left _ h)
          · exact .inr fun b hb => List.mem_append_left _ (h b hb)
        · exact .inl (List.mem_append_right _ ha)

/-- **Everything that can be reached from `x` is reported**, `x` itself apart. -/
theorem mem_breadthFirst (hU : ∀ a, ∀ b ∈ next a, b ∈ U) (hn : U.card + 1 ≤ n)
    (hreach : Relation.ReflTransGen (fun a b => b ∈ next a) x y) (hne : y ≠ x) :
    y ∈ breadthFirst next n [x] [x] := by
  have hcard : [x].length + (U \ [x].toFinset).card ≤ n := by
    have hle := Finset.card_le_card (Finset.sdiff_subset (s := U) (t := [x].toFinset))
    simp only [List.length_singleton]
    omega
  have hmem : y ∈ [x] ++ breadthFirst next n [x] [x] := by
    clear hne
    induction hreach with
    | refl => exact List.mem_append_left _ (List.mem_singleton_self x)
    | tail _ hb ih => exact closed_breadthFirst hU hcard (fun a ha => .inl ha) ih hb
  rcases List.mem_append.mp hmem with h | h
  · exact absurd (List.mem_singleton.mp h) hne
  · exact h

/-- **The search ends**: the queue is empty after as many expansions as there are nodes in it and
nodes to come. -/
theorem queueAfter_eq_nil (hU : ∀ a, ∀ b ∈ next a, b ∈ U)
    (hn : queue.length + (U \ seen.toFinset).card ≤ n) : queueAfter next n queue seen = [] := by
  induction n generalizing queue seen with
  | zero =>
    have hlen : queue.length = 0 := by omega
    exact List.eq_nil_of_length_eq_zero hlen
  | succ n ih =>
    cases queue with
    | nil => rfl
    | cons node queue =>
      refine ih ?_
      have hcard := card_unseen hU seen node
      simp only [List.length_cons, List.length_append] at hn ⊢
      omega

/-- What is reported was not seen. -/
theorem not_mem_seen_breadthFirst (hy : y ∈ breadthFirst next n queue seen) : y ∉ seen := by
  induction n generalizing queue seen with
  | zero => exact absurd hy List.not_mem_nil
  | succ n ih =>
    cases queue with
    | nil => exact absurd hy List.not_mem_nil
    | cons node queue =>
      rcases List.mem_append.mp hy with hy | hy
      · exact (mem_unseen.mp hy).2
      · exact fun hs => ih hy (List.mem_append_left _ hs)

/-- **Nothing is reported twice.** -/
theorem nodup_breadthFirst : (breadthFirst next n queue seen).Nodup := by
  induction n generalizing queue seen with
  | zero => exact List.nodup_nil
  | succ n ih =>
    cases queue with
    | nil => exact List.nodup_nil
    | cons node queue =>
      refine List.Nodup.append nodup_unseen ih fun a ha ha' => ?_
      exact not_mem_seen_breadthFirst ha' (List.mem_append_right _ ha)

/-- **What is reported can be reached** from the queue, in one step at least. -/
theorem reached_breadthFirst (hy : y ∈ breadthFirst next n queue seen) :
    ∃ x ∈ queue, Relation.TransGen (fun a b => b ∈ next a) x y := by
  induction n generalizing queue seen with
  | zero => exact absurd hy List.not_mem_nil
  | succ n ih =>
    cases queue with
    | nil => exact absurd hy List.not_mem_nil
    | cons node queue =>
      rcases List.mem_append.mp hy with hy | hy
      · exact ⟨node, List.mem_cons_self .., .single (mem_unseen.mp hy).1⟩
      · obtain ⟨x, hx, hreach⟩ := ih hy
        rcases List.mem_append.mp hx with hx | hx
        · exact ⟨x, List.mem_cons_of_mem _ hx, hreach⟩
        · -- an element that was put into the queue on behalf of the node
          exact ⟨node, List.mem_cons_self .., .head (mem_unseen.mp hx).1 hreach⟩

end search

end Graph

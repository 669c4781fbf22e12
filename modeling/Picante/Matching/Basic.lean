/-
# Lists whose elements are matched

Every element of one list is related to one of another list, and no two elements of the first are
related to the same one.

* `length_le_of_matched` -- the other list is at least as long.
* `matched_of_length_le` -- if it is no longer, all of its elements are matched.
* `length_eq_and_matched_iff` -- so lengths and one side say what both sides say.
-/
import Mathlib.Data.List.Basic

namespace Matching

variable {A B : Type} {R : A → B → Prop} {as : List A} {bs : List B}

/-- Elements that no two places relate are one if they are related. -/
theorem eq_of_pairwise {S : A → A → Prop} {a a' : A} (hne : as.Pairwise fun a a' => ¬ S a a')
    (hsymm : ∀ a ∈ as, ∀ a' ∈ as, S a a' → S a' a) (ha : a ∈ as) (ha' : a' ∈ as) (h : S a a') :
    a = a' := by
  induction as with
  | nil => cases ha
  | cons first as ih =>
    obtain ⟨hfirst, hne⟩ := List.pairwise_cons.mp hne
    have hback := hsymm a ha a' ha' h
    rcases List.mem_cons.mp ha with rfl | hmem
    · rcases List.mem_cons.mp ha' with rfl | hmem'
      · rfl
      · exact absurd h (hfirst a' hmem')
    · rcases List.mem_cons.mp ha' with rfl | hmem'
      · exact absurd hback (hfirst a hmem)
      · refine ih hne (fun a ha a' ha' => ?_) hmem hmem'
        exact hsymm a (List.mem_cons_of_mem _ ha) a' (List.mem_cons_of_mem _ ha')

/-- The other elements are matched by what remains when one is taken out. -/
theorem matched_tail {a : A} {b : B} {pre post : List B}
    (hne : ∀ a' ∈ as, ∀ b' ∈ pre ++ b :: post, R a b' → ¬ R a' b') (hab : R a b)
    (h : ∀ a' ∈ as, ∃ b' ∈ pre ++ b :: post, R a' b') : ∀ a' ∈ as, ∃ b' ∈ pre ++ post, R a' b' := by
  intro a' ha'
  obtain ⟨b', hb', hr⟩ := h a' ha'
  refine ⟨b', ?_, hr⟩
  rcases List.mem_append.mp hb' with hb' | hb'
  · exact List.mem_append_left _ hb'
  · rcases List.mem_cons.mp hb' with rfl | hb'
    · exact absurd hr (hne a' ha' b' (List.mem_append_right _ (List.mem_cons_self ..)) hab)
    · exact List.mem_append_right _ hb'

/-- And they stay apart. -/
theorem pairwise_tail {b : B} {pre post : List B}
    (hne : as.Pairwise fun a a' => ∀ b' ∈ pre ++ b :: post, R a b' → ¬ R a' b') :
    as.Pairwise fun a a' => ∀ b' ∈ pre ++ post, R a b' → ¬ R a' b' := by
  refine hne.imp fun h b hb => h b ?_
  rcases List.mem_append.mp hb with hb | hb
  · exact List.mem_append_left _ hb
  · exact List.mem_append_right _ (List.mem_cons_of_mem _ hb)

/-- **A list that is matched is no longer than the other.** -/
theorem length_le_of_matched (hne : as.Pairwise fun a a' => ∀ b ∈ bs, R a b → ¬ R a' b)
    (h : ∀ a ∈ as, ∃ b ∈ bs, R a b) : as.length ≤ bs.length := by
  induction as generalizing bs with
  | nil => exact Nat.zero_le _
  | cons a as ih =>
    obtain ⟨hfirst, hne⟩ := List.pairwise_cons.mp hne
    obtain ⟨b, hb, hab⟩ := h a (List.mem_cons_self ..)
    obtain ⟨pre, post, rfl⟩ := List.append_of_mem hb
    have hrest := matched_tail hfirst hab fun a' ha' => h a' (List.mem_cons_of_mem _ ha')
    have hle := ih (pairwise_tail hne) hrest
    rw [List.length_append] at hle ⊢
    rw [List.length_cons, List.length_cons]
    omega

/-- **A list no longer than the one matched in it is matched whole.** -/
theorem matched_of_length_le (hne : as.Pairwise fun a a' => ∀ b ∈ bs, R a b → ¬ R a' b)
    (h : ∀ a ∈ as, ∃ b ∈ bs, R a b) (hlength : bs.length ≤ as.length) :
    ∀ b ∈ bs, ∃ a ∈ as, R a b := by
  induction as generalizing bs with
  | nil =>
    obtain rfl := List.length_eq_zero_iff.mp (Nat.le_zero.mp hlength)
    nofun
  | cons a as ih =>
    obtain ⟨hfirst, hne⟩ := List.pairwise_cons.mp hne
    obtain ⟨b₀, hb₀, hab⟩ := h a (List.mem_cons_self ..)
    obtain ⟨pre, post, rfl⟩ := List.append_of_mem hb₀
    have hrest := matched_tail hfirst hab fun a' ha' => h a' (List.mem_cons_of_mem _ ha')
    have hle : (pre ++ post).length ≤ as.length := by
      rw [List.length_append] at hlength ⊢
      rw [List.length_cons, List.length_cons] at hlength
      omega
    have hmatched := ih (pairwise_tail hne) hrest hle
    intro b hb
    rcases List.mem_append.mp hb with hb | hb
    · obtain ⟨a', ha', hr⟩ := hmatched b (List.mem_append_left _ hb)
      exact ⟨a', List.mem_cons_of_mem _ ha', hr⟩
    · rcases List.mem_cons.mp hb with rfl | hb
      · exact ⟨a, List.mem_cons_self .., hab⟩
      · obtain ⟨a', ha', hr⟩ := hmatched b (List.mem_append_right _ hb)
        exact ⟨a', List.mem_cons_of_mem _ ha', hr⟩

/-- **Lists whose elements are not related twice, on either side, are as long as each other where
each element of the first is matched, if and only if each of the second is.** -/
theorem length_eq_and_matched_iff (hne : as.Pairwise fun a a' => ∀ b ∈ bs, R a b → ¬ R a' b)
    (hne' : bs.Pairwise fun b b' => ∀ a ∈ as, R a b → ¬ R a b') :
    (as.length = bs.length ∧ ∀ a ∈ as, ∃ b ∈ bs, R a b) ↔
      (∀ a ∈ as, ∃ b ∈ bs, R a b) ∧ ∀ b ∈ bs, ∃ a ∈ as, R a b := by
  constructor
  · rintro ⟨hlength, h⟩
    exact ⟨h, matched_of_length_le hne h (Nat.le_of_eq hlength.symm)⟩
  · rintro ⟨h, h'⟩
    have hle := length_le_of_matched hne h
    have hge := length_le_of_matched hne' h'
    exact ⟨Nat.le_antisymm hle hge, h⟩

end Matching

/-
# What happens in the end, whichever steps are taken

A state that a system comes to whatever steps it takes: as long as it has not come there, a step can
be taken, and steps do not go on for ever (`Inevitable`).  No fairness is asked for: every order of
the steps leads there.

That steps do not go on for ever is shown with a potential, a finite multiset of tokens.  Each step
spends a token and may pay out any number of tokens below the one it spends (`Spends`); where being
below is well founded, tokens run out (`wellFounded_spends`), as the heads of a hydra do.

* `Spends` -- a token is spent; `Spends.of_sum` -- by one of many that hold tokens.
* `Stops.of_spends` -- a system whose steps spend tokens stops.
* `Inevitable.of_stops` -- a system that stops, and does so only where it should, comes there.
-/
import Picante.Trans.Run
import Mathlib.Algebra.Order.BigOperators.Group.Finset
import Mathlib.Data.Multiset.AddSub
import Mathlib.Logic.Hydra

namespace Trans

open Relation

/-! ## 1. Tokens -/

section tokens

variable {T : Type} {r : T → T → Prop}

/-- From `s` to `s'` a token is spent, and what is gained is below it. -/
def Spends (r : T → T → Prop) (s' s : Multiset T) : Prop :=
  ∃ (t : Multiset T) (x : T), (∀ y ∈ t, r y x) ∧ s' + {x} ≤ s + t

/-- **Tokens run out.** -/
theorem wellFounded_spends (hr : WellFounded r) : WellFounded (Spends r) := by
  have hirrefl : Std.Irrefl r := ⟨fun x h => hr.asymmetric x x h h⟩
  -- whoever holds no more than `s` runs out if `s` does
  have hacc : ∀ s, ∀ s₀ ≤ s, Acc (Spends r) s₀ := fun s => by
    induction s using hr.cutExpand.induction with
    | _ s ih =>
      intro s₀ hle
      refine Acc.intro _ fun s' ⟨t, x, ht, hs'⟩ => ?_
      classical
      have hx : x ∈ s₀ := by
        have hmem : x ∈ s₀ + t :=
          Multiset.mem_of_le hs' (Multiset.mem_add.mpr (.inr (Multiset.mem_singleton_self x)))
        exact (Multiset.mem_add.mp hmem).resolve_right fun hxt => hirrefl.irrefl x (ht x hxt)
      have hxs := Multiset.mem_of_le hle hx
      refine ih _ (cutExpand_iff.mpr ⟨t, x, ht, hxs, rfl⟩) s' ?_
      refine Multiset.le_of_add_le_add_right (u := {x}) ?_
      calc s' + {x} ≤ s₀ + t := hs'
        _ ≤ s + t := Multiset.add_le_add_right hle
        _ = s.erase x + t + {x} := by
          rw [add_right_comm, add_comm (s.erase x), Multiset.singleton_add, Multiset.cons_erase hxs]
  exact ⟨fun s => hacc s s le_rfl⟩

/-- **Of many that hold tokens one spends a token**, and whatever anybody gains is below it. -/
theorem Spends.of_sum {I : Type} {s : Finset I} {i : I} (hi : i ∈ s) {f f' g : I → Multiset T}
    {x : T} (hspends : f' i + {x} ≤ f i + g i) (hothers : ∀ j ∈ s, j ≠ i → f' j ≤ f j + g j)
    (hg : ∀ j ∈ s, ∀ y ∈ g j, r y x) : Spends r (∑ j ∈ s, f' j) (∑ j ∈ s, f j) := by
  classical
  refine ⟨∑ j ∈ s, g j, x, fun y hy => ?_, ?_⟩
  · obtain ⟨j, hj, hy⟩ := Multiset.mem_sum.mp hy
    exact hg j hj y hy
  · rw [← Finset.sum_add_distrib, ← Finset.add_sum_erase s f' hi,
      ← Finset.add_sum_erase s (fun j => f j + g j) hi, add_right_comm]
    refine add_le_add hspends (Finset.sum_le_sum fun j hj => ?_)
    exact hothers j (Finset.mem_of_mem_erase hj) (Finset.ne_of_mem_erase hj)

end tokens

/-! ## 2. Systems that stop -/

section systems

variable {S L T : Type} {step : S → L → Option S} {may : L → Prop} {s : S}

/-- Steps that may be taken do not go on for ever. -/
def Stops (step : S → L → Option S) (may : L → Prop) (s : S) : Prop :=
  Acc (fun s' s => ∃ l, may l ∧ step s l = some s') s

/-- **A system whose steps spend tokens stops**, from any state with an invariant. -/
theorem Stops.of_spends {I : S → Prop} {r : T → T → Prop} (tokens : S → Multiset T)
    (hr : WellFounded r)
    (hstep : ∀ s l s', I s → may l → step s l = some s' →
      I s' ∧ Spends r (tokens s') (tokens s)) (h : I s) : Stops step may s := by
  have hacc : ∀ m, ∀ s, tokens s = m → I s → Stops step may s := fun m => by
    induction m using (wellFounded_spends hr).induction with
    | _ m ih =>
      rintro s rfl hs
      refine Acc.intro _ fun s' ⟨l, hl, hstep'⟩ => ?_
      obtain ⟨hs', hspends⟩ := hstep s l s' hs hl hstep'
      exact ih _ hspends s' rfl hs'
  exact hacc _ s rfl h

/-- No sequence of steps that may be taken goes on for ever. -/
theorem Stops.schedule (h : Stops step may s) (schedule : Nat → L) (hmay : ∀ n, may (schedule n)) :
    ∃ n, run step s ((List.range n).map schedule) = none := by
  induction h generalizing schedule with
  | intro s _ ih =>
    cases hs : step s (schedule 0) with
    | none => exact ⟨1, by simp [run, hs]⟩
    | some s' =>
      obtain ⟨n, hn⟩ := ih s' ⟨_, hmay 0, hs⟩ (fun i => schedule (i + 1)) fun i => hmay (i + 1)
      refine ⟨n + 1, ?_⟩
      rw [List.range_succ_eq_map, List.map_cons, List.map_map, run, hs]
      exact hn

/-- The system comes to a state with `P`, whatever steps it takes of those that may be taken. -/
inductive Inevitable (step : S → L → Option S) (may : L → Prop) (P : S → Prop) : S → Prop
  | now {s : S} (h : P s) : Inevitable step may P s
  | later {s : S} (hcan : ∃ l, may l ∧ (step s l).isSome = true)
      (h : ∀ l s', may l → step s l = some s' → Inevitable step may P s') : Inevitable step may P s

/-- **A system that stops, and does so only where it should, comes there.** -/
theorem Inevitable.of_stops {I P : S → Prop} (hstops : Stops step may s)
    (hkeep : ∀ s l s', I s → may l → step s l = some s' → P s' ∨ I s')
    (hcan : ∀ s, I s → P s ∨ ∃ l, may l ∧ (step s l).isSome = true) (h : I s) :
    Inevitable step may P s := by
  induction hstops with
  | intro s _ ih =>
    rcases hcan s h with hP | hl
    · exact .now hP
    · refine .later hl fun l s' hmay hstep => ?_
      rcases hkeep s l s' h hmay hstep with hP | hs'
      · exact .now hP
      · exact ih s' ⟨l, hmay, hstep⟩ hs'

end systems

end Trans

/-
# Calls of `set` and `remove` that race for a slot

A call looks at the slot under the read lock, then takes a revision, and stores its entry under the
write lock later, so that two calls can store in the other order than they took their revisions
(`later_revision_is_overwritten`).

As long as the calls on a slot store in the order of their revisions, the slot is never stamped
with a smaller revision than before, and once all calls have returned it holds what the call with
the greatest revision wrote (`slot_keeps_the_latest`).

* `InputStep`, `MutatorStep` -- what a step does to the slots and the revisions.
* `Dated` -- no slot is stamped with a revision that its view has not reached.
* `InTurn` -- what holds of a slot whose calls store in turn.
-/
import Picante.Coherence.Native
import Picante.Cancellation

namespace Picante

open Config

variable {V : Type}

/-- The call is on this slot. -/
def Mutator.On (m : Mutator V) (i : ViewId) (k : DynKey) : Prop := m.view = i ∧ m.key = k

/-- The call has taken revision `r` and has not stored its entry yet. -/
def Mutator.Took (m : Mutator V) (r : Revision) : Prop := m.pc = .diverge r ∨ m.pc = .store r

/-! ## 1. Steps of a call -/

/-- What a step of a call does. -/
inductive MutatorStep (w : World V) (m : Mutator V) (w' : World V) : Mutator V → Prop where
  /-- the slot already has the content -/
  | found (hpc : m.pc = .check) (hget : (w.inputs m.view).get m.key = m.value) (hw : w' = w) :
      MutatorStep w m w' { m with pc := .done ((w.inputs m.view).touch m.key) }
  | differs (hpc : m.pc = .check) (hw : w' = w) : MutatorStep w m w' { m with pc := .bump }
  | bumped (hpc : m.pc = .bump) (hin : ∀ j, w'.inputs j = w.inputs j)
      (hrev : ∀ j, w'.rev j = if j = m.view then w.rev m.view + 1 else w.rev j) :
      MutatorStep w m w' { m with pc := .diverge (w.rev m.view + 1) }
  | diverged {r : Revision} (hpc : m.pc = .diverge r) (hin : ∀ j, w'.inputs j = w.inputs j)
      (hrev : ∀ j, w'.rev j = w.rev j) : MutatorStep w m w' { m with pc := .store r }
  | stored {r : Revision} (hpc : m.pc = .store r)
      (hin : ∀ j, w'.inputs j =
        if j = m.view then (w.inputs m.view).store m.key m.value r else w.inputs j)
      (hrev : ∀ j, w'.rev j = w.rev j) : MutatorStep w m w' { m with pc := .done r }

theorem get_of_noChange [DecidableEq V] {inputs : Inputs V} {k : DynKey} {value : Option V}
    (h : noChange inputs k value = true) : inputs.get k = value := by
  cases value with
  | some v => exact eq_of_beq h
  | none => exact Option.isNone_iff_eq_none.mp h

theorem mutatorStep_of_stepMutator [DecidableEq V] {w w' : World V} {m m' : Mutator V}
    (h : stepMutator w m = some (w', m')) :
    MutatorStep w m w' m' ∧ w'.viewCount = w.viewCount := by
  unfold stepMutator at h
  cases hpc : m.pc with
  | check =>
    simp only [hpc] at h
    split at h
    · next hno =>
      cases h
      exact ⟨.found hpc (get_of_noChange hno) rfl, rfl⟩
    · cases h
      exact ⟨.differs hpc rfl, rfl⟩
  | bump =>
    simp only [hpc] at h
    cases h
    have hrev : ∀ j, (w.modifyRuntime m.view (·.bumpRevision)).rev j =
        if j = m.view then w.rev m.view + 1 else w.rev j := fun j => World.rev_modifyRuntime ..
    rw [hrev, if_pos rfl]
    exact ⟨.bumped hpc (fun j => World.inputs_modifyRuntime ..) hrev, rfl⟩
  | diverge r =>
    simp only [hpc] at h
    cases h
    exact ⟨.diverged hpc (fun j => World.inputs_markDivergent ..) fun j =>
      World.rev_markDivergent .., rfl⟩
  | store r =>
    simp only [hpc] at h
    cases h
    exact ⟨.stored hpc (fun j => World.inputs_storeInput ..) fun j => World.rev_storeInput .., rfl⟩
  | done r => simp [hpc] at h

/-- A call stays the call it is. -/
theorem MutatorStep.on_iff {w w' : World V} {m m' : Mutator V} (h : MutatorStep w m w' m')
    (i : ViewId) (k : DynKey) : m'.On i k ↔ m.On i k := by
  cases h <;> rfl

/-- A step of a call on another slot. -/
theorem MutatorStep.slot {w w' : World V} {m m' : Mutator V} (h : MutatorStep w m w' m')
    {i : ViewId} {k : DynKey} (hon : ¬ m.On i k) : w'.inputs i k = w.inputs i k := by
  cases h with
  | found _ _ hw => rw [hw]
  | differs _ hw => rw [hw]
  | bumped _ hin _ => rw [hin]
  | diverged _ hin _ => rw [hin]
  | stored _ hin _ =>
    rw [hin]
    split
    · next hi =>
      subst hi
      exact Function.update_of_ne (fun hk => hon ⟨rfl, hk.symm⟩) ..
    · rfl

variable [DecidableEq V]

/-- What a step does to the slots, the revisions and the calls. -/
inductive InputStep (c : Config V) : Label V → Config V → Prop where
  | quiet {l : Label V} {c' : Config V} (hin : ∀ j, c'.world.inputs j = c.world.inputs j)
      (hrev : ∀ j, c'.world.rev j = c.world.rev j)
      (hcount : c'.world.viewCount = c.world.viewCount) (hm : c'.mutators = c.mutators) :
      InputStep c l c'
  | bump {view : ViewId} (hview : view < c.world.viewCount) : InputStep c (.bump view)
      { c with world := c.world.modifyRuntime view (·.bumpRevision) }
  | mutate {view : ViewId} {key : DynKey} {value : Option V} (hview : view < c.world.viewCount) :
      InputStep c (.mutate view key value) { c with world := mutateWorld c.world view key value }
  | begin {view : ViewId} {key : DynKey} {value : Option V} (hview : view < c.world.viewCount) :
      InputStep c (.begin view key value)
        { c with mutators := c.mutators ++ [⟨view, key, value, .check⟩] }
  | advance {n : Nat} {m m' : Mutator V} {w : World V} (hn : c.mutators[n]? = some m)
      (hm : MutatorStep c.world m w m') (hcount : w.viewCount = c.world.viewCount) :
      InputStep c (.advance n) { c with world := w, mutators := c.mutators.set n m' }
  | snapshot : InputStep c .snapshot { c with world := c.world.snapshot }

theorem inputStep_of_step {S : Schema V} {c c' : Config V} {l : Label V}
    (h : step S c l = some c') : InputStep c l c' := by
  cases l with
  | spawn view key want =>
    simp only [step] at h
    split at h <;> cases h
    exact .quiet (fun _ => rfl) (fun _ => rfl) rfl rfl
  | step t =>
    have hstep := taskStep_of_step h
    have hmutators : c'.mutators = c.mutators := by
      cases hstep <;> rfl
    exact .quiet hstep.fixed.inputs hstep.fixed.rev hstep.fixed.viewCount hmutators
  | drop t =>
    simp only [step, dropTask] at h
    split at h
    · cases h
    · next a below hst =>
      split at h <;> cases h
      have hfixed := fixed_cancelGuards c.world (a :: below)
      exact .quiet hfixed.inputs hfixed.rev hfixed.viewCount rfl
  | mutate view key value =>
    simp only [step] at h
    split at h
    · next hview => cases h; exact .mutate hview.1
    · cases h
  | «begin» view key value =>
    simp only [step] at h
    split at h
    · next hview => cases h; exact .begin hview.1
    · cases h
  | advance n =>
    simp only [step] at h
    split at h
    · cases h
    · next m hn =>
      split at h
      · cases h
      · next w m' hm =>
        cases h
        obtain ⟨hstep, hcount⟩ := mutatorStep_of_stepMutator hm
        exact .advance hn hstep hcount
  | intern kind value => cases h; exact .quiet (fun _ => rfl) (fun _ => rfl) rfl rfl
  | bump view =>
    simp only [step] at h
    split at h
    · next hview => cases h; exact .bump hview
    · cases h
  | snapshot => cases h; exact .snapshot

omit [DecidableEq V] in
/-- What a slot is stamped with when an entry is stored. -/
theorem touch_store (inputs : Inputs V) (key k : DynKey) (value : Option V) (r : Revision) :
    (inputs.store key value r).touch k = if k = key then r else inputs.touch k := by
  by_cases hk : k = key
  · rw [if_pos hk, hk, Inputs.touch_store_self]
  · rw [if_neg hk, Inputs.touch_store_ne inputs hk]

/-! ## 2. Stamps and revisions -/

omit [DecidableEq V] in
/-- No slot is stamped with a revision that its view has not reached, nor will be by a call that
has taken its revision. -/
structure Dated (c : Config V) : Prop where
  touch_le : ∀ i k, (c.world.inputs i).touch k ≤ c.world.rev i
  unborn : ∀ i k, c.world.viewCount ≤ i → (c.world.inputs i).touch k = 0
  views : ∀ m ∈ c.mutators, m.view < c.world.viewCount
  took : ∀ m ∈ c.mutators, ∀ r, m.Took r → r ≤ c.world.rev m.view

omit [DecidableEq V] in
theorem dated_init : Dated (init : Config V) :=
  ⟨fun _ _ => Nat.zero_le _, fun _ _ _ => rfl, nofun, nofun⟩

/-- What a whole call does to the stamps and the revisions. -/
theorem dated_mutateWorld {w : World V} (view : ViewId) (key : DynKey) (value : Option V)
    (h : ∀ i k, (w.inputs i).touch k ≤ w.rev i) :
    (∀ i k, ((mutateWorld w view key value).inputs i).touch k ≤
      (mutateWorld w view key value).rev i) ∧
    (∀ i, w.rev i ≤ (mutateWorld w view key value).rev i) ∧
    (∀ i k, ¬ (view = i ∧ key = k) → ((mutateWorld w view key value).inputs i) k = (w.inputs i) k) ∧
    (mutateWorld w view key value).viewCount = w.viewCount := by
  unfold mutateWorld
  split
  · exact ⟨h, fun _ => Nat.le_refl _, fun _ _ _ => rfl, rfl⟩
  · have hrev : ∀ j, (((w.modifyRuntime view (·.bumpRevision)).markDivergent view).storeInput view
        key value ((w.modifyRuntime view (·.bumpRevision)).rev view)).rev j =
          if j = view then w.rev view + 1 else w.rev j := fun j =>
      (World.rev_storeInput ..).trans
        ((World.rev_markDivergent ..).trans (World.rev_modifyRuntime ..))
    have hin : ∀ j, (((w.modifyRuntime view (·.bumpRevision)).markDivergent view).storeInput view
        key value ((w.modifyRuntime view (·.bumpRevision)).rev view)).inputs j =
          if j = view then (w.inputs view).store key value (w.rev view + 1) else w.inputs j := by
      intro j
      have hview : (w.modifyRuntime view (·.bumpRevision)).rev view = w.rev view + 1 :=
        (World.rev_modifyRuntime ..).trans (if_pos rfl)
      rw [World.inputs_storeInput, World.inputs_markDivergent, World.inputs_markDivergent,
        World.inputs_modifyRuntime, World.inputs_modifyRuntime, hview]
    refine ⟨fun i k => ?_, fun i => ?_, fun i k hne => ?_, rfl⟩
    · rw [hin, hrev]
      split
      · next hi =>
        subst hi
        rw [touch_store]
        split
        · exact Nat.le_refl _
        · exact Nat.le_succ_of_le (h i k)
      · exact h i k
    · rw [hrev]
      split
      · next hi => subst hi; exact Nat.le_succ _
      · exact Nat.le_refl _
    · rw [hin]
      split
      · next hi =>
        subst hi
        exact Function.update_of_ne (fun hk => hne ⟨rfl, hk.symm⟩) ..
      · rfl

section steps

variable {S : Schema V} {c c' : Config V} {l : Label V} {i : ViewId} {k : DynKey}

omit [DecidableEq V] in
/-- A step of a call, at a slot that is stamped with a revision its view has reached. -/
theorem MutatorStep.dated {w w' : World V} {m m' : Mutator V} (h : MutatorStep w m w' m')
    (htouch : ∀ i k, (w.inputs i).touch k ≤ w.rev i) (htook : ∀ r, m.Took r → r ≤ w.rev m.view) :
    (∀ i k, (w'.inputs i).touch k ≤ w'.rev i) ∧ (∀ i, w.rev i ≤ w'.rev i) ∧
      (∀ i, i ≠ m.view → w'.inputs i = w.inputs i) ∧ m'.view = m.view ∧
        ∀ r, m'.Took r → r ≤ w'.rev m.view := by
  cases h with
  | found hpc hget hw =>
    subst hw
    exact ⟨htouch, fun _ => Nat.le_refl _, fun _ _ => rfl, rfl, by rintro r (h | h) <;> cases h⟩
  | differs hpc hw =>
    subst hw
    exact ⟨htouch, fun _ => Nat.le_refl _, fun _ _ => rfl, rfl, by rintro r (h | h) <;> cases h⟩
  | bumped hpc hin hrev =>
    have hle : ∀ i, w.rev i ≤ w'.rev i := by
      intro i
      rw [hrev]
      split
      · next hi => subst hi; exact Nat.le_succ _
      · exact Nat.le_refl _
    refine ⟨fun i k => ?_, hle, fun i _ => hin i, rfl, ?_⟩
    · rw [hin]
      exact Nat.le_trans (htouch i k) (hle i)
    · rintro r (h | h) <;> cases h
      exact Nat.le_of_eq (by rw [hrev, if_pos rfl])
  | @diverged r hpc hin hrev =>
    refine ⟨fun i k => ?_, fun i => Nat.le_of_eq (hrev i).symm, fun i _ => hin i, rfl, ?_⟩
    · rw [hin, hrev]
      exact htouch i k
    · rintro r' (h | h) <;> cases h
      rw [hrev]
      exact htook r (.inl hpc)
  | @stored r hpc hin hrev =>
    refine ⟨fun i k => ?_, fun i => Nat.le_of_eq (hrev i).symm, fun i hi => ?_, rfl, ?_⟩
    · rw [hin, hrev]
      split
      · next hi =>
        subst hi
        rw [touch_store]
        split
        · exact htook r (.inr hpc)
        · exact htouch _ k
      · exact htouch i k
    · rw [hin, if_neg hi]
    · rintro r' (h | h) <;> cases h

/-- **The stamps and revisions stay in order**, whatever happens. -/
theorem Dated.step (h : Dated c) (hs : Config.step S c l = some c') : Dated c' := by
  cases inputStep_of_step hs with
  | quiet hin hrev hcount hm =>
    refine ⟨fun i k => ?_, fun i k hi => ?_, fun m hmem => ?_, fun m hmem r hr => ?_⟩
    · rw [hin, hrev]
      exact h.touch_le i k
    · rw [hin]
      exact h.unborn i k (hcount ▸ hi)
    · rw [hcount]
      exact h.views m (hm ▸ hmem)
    · rw [hrev]
      exact h.took m (hm ▸ hmem) r hr
  | @bump view hview =>
    have hrev : ∀ j, c.world.rev j ≤ (c.world.modifyRuntime view (·.bumpRevision)).rev j := by
      intro j
      rw [World.rev_modifyRuntime]
      split
      · next hj => subst hj; exact Nat.le_succ _
      · exact Nat.le_refl _
    refine ⟨fun i k => ?_, fun i k hi => ?_, h.views, fun m hmem r hr => ?_⟩
    · show ((c.world.modifyRuntime view (·.bumpRevision)).inputs i).touch k ≤ _
      rw [World.inputs_modifyRuntime]
      exact Nat.le_trans (h.touch_le i k) (hrev i)
    · show ((c.world.modifyRuntime view (·.bumpRevision)).inputs i).touch k = 0
      rw [World.inputs_modifyRuntime]
      exact h.unborn i k hi
    · exact Nat.le_trans (h.took m hmem r hr) (hrev m.view)
  | @mutate view key value hview =>
    obtain ⟨htouch, hrev, hslot, hcount⟩ := dated_mutateWorld view key value h.touch_le
    refine ⟨htouch, fun i k hi => ?_, fun m hmem => ?_, fun m hmem r hr => ?_⟩
    · have hi : c.world.viewCount ≤ i := hcount ▸ hi
      have hsame := hslot i k fun hon => absurd (hon.1 ▸ hview) (Nat.not_lt_of_le hi)
      have hunborn := h.unborn i k hi
      unfold Inputs.touch at hunborn ⊢
      rw [hsame]
      exact hunborn
    · exact Nat.lt_of_lt_of_eq (h.views m hmem) hcount.symm
    · exact Nat.le_trans (h.took m hmem r hr) (hrev m.view)
  | @begin view key value hview =>
    refine ⟨h.touch_le, h.unborn, fun m hmem => ?_, fun m hmem r hr => ?_⟩
    · rcases List.mem_append.mp hmem with hmem | hmem
      · exact h.views m hmem
      · obtain rfl := List.mem_singleton.mp hmem
        exact hview
    · rcases List.mem_append.mp hmem with hmem | hmem
      · exact h.took m hmem r hr
      · obtain rfl := List.mem_singleton.mp hmem
        rcases hr with hr | hr <;> cases hr
  | @advance n m m' w hn hm hcount =>
    have hmem := List.mem_of_getElem? hn
    obtain ⟨htouch, hrev, hin, hview, htook⟩ := hm.dated h.touch_le (h.took m hmem)
    refine ⟨htouch, fun i k hi => ?_, fun m₁ hm₁ => ?_, fun m₁ hm₁ r hr => ?_⟩
    · have hi : c.world.viewCount ≤ i := hcount ▸ hi
      have hne : i ≠ m.view := fun heq => Nat.not_lt_of_le hi (heq ▸ h.views m hmem)
      show (w.inputs i).touch k = 0
      rw [hin i hne]
      exact h.unborn i k hi
    · show m₁.view < w.viewCount
      rw [hcount]
      rcases List.mem_or_eq_of_mem_set hm₁ with hm₁ | rfl
      · exact h.views m₁ hm₁
      · exact hview ▸ h.views m hmem
    · rcases List.mem_or_eq_of_mem_set hm₁ with hm₁ | rfl
      · exact Nat.le_trans (h.took m₁ hm₁ r hr) (hrev m₁.view)
      · rw [hview]
        exact htook r hr
  | snapshot =>
    have hcount : c.world.snapshot.viewCount = c.world.viewCount + 1 := rfl
    refine ⟨fun i k => ?_, fun i k hi => ?_, fun m hmem => ?_, fun m hmem r hr => ?_⟩
    · show (c.world.snapshot.inputs i).touch k ≤ c.world.snapshot.rev i
      rw [World.inputs_snapshot, World.rev_snapshot]
      split <;> exact h.touch_le ..
    · show (c.world.snapshot.inputs i).touch k = 0
      have hi : c.world.viewCount + 1 ≤ i := hi
      rw [World.inputs_snapshot, if_neg (Nat.ne_of_gt hi)]
      exact h.unborn i k (Nat.le_of_succ_le hi)
    · exact Nat.lt_succ_of_lt (h.views m hmem)
    · show r ≤ c.world.snapshot.rev m.view
      rw [World.rev_snapshot, if_neg (Nat.ne_of_lt (h.views m hmem))]
      exact h.took m hmem r hr

end steps

/-! ## 3. Calls that store in turn -/

/-- The calls on the slot are made step by step, and none stores its entry while another that has
taken a smaller revision is still to store. -/
def StoresInTurn (i : ViewId) (k : DynKey) (c : Config V) : Label V → Prop
  | .advance n => ∀ m r, c.mutators[n]? = some m → m.On i k → m.pc = .store r →
      ∀ (n' : Nat) (m' : Mutator V) (r' : Revision), n' ≠ n → c.mutators[n']? = some m' →
        m'.On i k → m'.Took r' → r < r'
  | .mutate view key _ => ¬ (view = i ∧ key = k)
  | _ => True

/-- The calls that are still to store have taken later revisions than the slot is stamped with, and
the others returned its stamp or an earlier one; one of them the stamp, if any has returned. -/
structure InTurn (i : ViewId) (k : DynKey) (c : Config V) : Prop where
  took : ∀ (n : Nat) (m : Mutator V) (r : Revision), c.mutators[n]? = some m → m.On i k →
    m.Took r → (c.world.inputs i).touch k < r
  done : ∀ (n : Nat) (m : Mutator V) (r : Revision), c.mutators[n]? = some m → m.On i k →
    m.pc = .done r → r ≤ (c.world.inputs i).touch k ∧
      (r = (c.world.inputs i).touch k → (c.world.inputs i).get k = m.value)
  last : ∀ (n : Nat) (m : Mutator V) (r : Revision), c.mutators[n]? = some m → m.On i k →
    m.pc = .done r → ∃ (n' : Nat) (m' : Mutator V), c.mutators[n']? = some m' ∧ m'.On i k ∧
      m'.pc = .done ((c.world.inputs i).touch k)

section turns

variable {S : Schema V} {c c' : Config V} {l : Label V} {i : ViewId} {k : DynKey}

omit [DecidableEq V] in
theorem inTurn_init : InTurn i k (init : Config V) := by
  refine ⟨?_, ?_, ?_⟩ <;> intro n m r hn <;> cases hn

omit [DecidableEq V] in
/-- A slot that stays as it is, with calls that only start. -/
theorem InTurn.of_same (h : InTurn i k c) (hslot : c'.world.inputs i k = c.world.inputs i k)
    (hold : ∀ (n : Nat) (m : Mutator V), c'.mutators[n]? = some m → m.On i k →
      c.mutators[n]? = some m ∨ m.pc = .check ∨ m.pc = .bump)
    (hkeep : ∀ (n : Nat) (m : Mutator V) (r : Revision), c.mutators[n]? = some m → m.On i k →
      m.pc = .done r → c'.mutators[n]? = some m) :
    InTurn i k c' ∧ (c.world.inputs i).touch k ≤ (c'.world.inputs i).touch k := by
  have htouch : (c'.world.inputs i).touch k = (c.world.inputs i).touch k := by
    unfold Inputs.touch
    rw [hslot]
  have hget : (c'.world.inputs i).get k = (c.world.inputs i).get k := by
    unfold Inputs.get
    rw [hslot]
  refine ⟨⟨fun n m r hn hon hr => ?_, fun n m r hn hon hr => ?_, fun n m r hn hon hr => ?_⟩,
    Nat.le_of_eq htouch.symm⟩
  · rw [htouch]
    rcases hold n m hn hon with hn | hpc | hpc
    · exact h.took n m r hn hon hr
    · rcases hr with hr | hr <;> rw [hpc] at hr <;> cases hr
    · rcases hr with hr | hr <;> rw [hpc] at hr <;> cases hr
  · rw [htouch, hget]
    rcases hold n m hn hon with hn | hpc | hpc
    · exact h.done n m r hn hon hr
    · rw [hpc] at hr; cases hr
    · rw [hpc] at hr; cases hr
  · rw [htouch]
    rcases hold n m hn hon with hn | hpc | hpc
    · obtain ⟨n', m', hn', hon', hr'⟩ := h.last n m r hn hon hr
      exact ⟨n', m', hkeep n' m' _ hn' hon' hr', hon', hr'⟩
    · rw [hpc] at hr; cases hr
    · rw [hpc] at hr; cases hr

omit [DecidableEq V] in
/-- The calls when one of them has taken a step. -/
theorem getElem?_set_cases {ms : List (Mutator V)} {n n' : Nat} {m m' m₁ : Mutator V}
    (hn : ms[n]? = some m) (h : (ms.set n m')[n']? = some m₁) :
    n' = n ∧ m₁ = m' ∨ n' ≠ n ∧ ms[n']? = some m₁ := by
  rcases eq_or_ne n' n with rfl | hne
  · rw [List.getElem?_set_self (List.getElem?_eq_some_iff.mp hn).1] at h
    exact .inl ⟨rfl, (Option.some.inj h).symm⟩
  · rw [List.getElem?_set_ne hne.symm] at h
    exact .inr ⟨hne, h⟩

omit [DecidableEq V] in
/-- **A call on the slot takes a step.** -/
theorem InTurn.advance (h : InTurn i k c) (hd : Dated c) {n : Nat} {m m' : Mutator V} {w : World V}
    (hn : c.mutators[n]? = some m) (hm : MutatorStep c.world m w m') (hon : m.On i k)
    (hturn : ∀ r, m.pc = .store r → ∀ (n' : Nat) (m' : Mutator V) (r' : Revision), n' ≠ n →
      c.mutators[n']? = some m' → m'.On i k → m'.Took r' → r < r') :
    InTurn i k { c with world := w, mutators := c.mutators.set n m' } ∧
      (c.world.inputs i).touch k ≤ (w.inputs i).touch k := by
  obtain ⟨rfl, rfl⟩ := hon
  have hself : (c.mutators.set n m')[n]? = some m' :=
    List.getElem?_set_self (List.getElem?_eq_some_iff.mp hn).1
  -- a call that has returned is another one
  have hkeep : ∀ (n₁ : Nat) (m₁ : Mutator V) (r : Revision), (∀ r, m.pc ≠ .done r) →
      c.mutators[n₁]? = some m₁ → m₁.pc = .done r → (c.mutators.set n m')[n₁]? = some m₁ := by
    intro n₁ m₁ r hpc hn₁ hr
    rcases eq_or_ne n₁ n with rfl | hne
    · rw [hn] at hn₁
      cases hn₁
      exact absurd hr (hpc r)
    · rw [List.getElem?_set_ne hne.symm]
      exact hn₁
  cases hm with
  | differs hpc hw =>
    subst hw
    refine h.of_same rfl (fun n₁ m₁ hn₁ hon₁ => ?_) fun n₁ m₁ r hn₁ hon₁ hr =>
      hkeep n₁ m₁ r (fun r => by rw [hpc]; nofun) hn₁ hr
    rcases getElem?_set_cases hn hn₁ with ⟨-, rfl⟩ | ⟨-, hn₁⟩
    · exact .inr (.inr rfl)
    · exact .inl hn₁
  | found hpc hget hw =>
    subst hw
    refine ⟨⟨fun n₁ m₁ r hn₁ hon₁ hr => ?_, fun n₁ m₁ r hn₁ hon₁ hr => ?_,
      fun n₁ m₁ r hn₁ hon₁ hr => ⟨n, _, hself, ⟨rfl, rfl⟩, rfl⟩⟩, Nat.le_refl _⟩
    · rcases getElem?_set_cases hn hn₁ with ⟨-, rfl⟩ | ⟨-, hn₁⟩
      · rcases hr with hr | hr <;> cases hr
      · exact h.took n₁ m₁ r hn₁ hon₁ hr
    · rcases getElem?_set_cases hn hn₁ with ⟨-, rfl⟩ | ⟨-, hn₁⟩
      · cases hr
        exact ⟨Nat.le_refl _, fun _ => hget⟩
      · exact h.done n₁ m₁ r hn₁ hon₁ hr
  | bumped hpc hin hrev =>
    have hw : w.inputs m.view = c.world.inputs m.view := hin m.view
    have hlt := Nat.lt_succ_of_le (hd.touch_le m.view m.key)
    refine ⟨⟨fun n₁ m₁ r hn₁ hon₁ hr => ?_, fun n₁ m₁ r hn₁ hon₁ hr => ?_,
      fun n₁ m₁ r hn₁ hon₁ hr => ?_⟩, ?_⟩ <;> simp only [hw]
    · rcases getElem?_set_cases hn hn₁ with ⟨-, rfl⟩ | ⟨-, hn₁⟩
      · rcases hr with hr | hr <;> cases hr
        exact hlt
      · exact h.took n₁ m₁ r hn₁ hon₁ hr
    · rcases getElem?_set_cases hn hn₁ with ⟨-, rfl⟩ | ⟨-, hn₁⟩
      · cases hr
      · exact h.done n₁ m₁ r hn₁ hon₁ hr
    · rcases getElem?_set_cases hn hn₁ with ⟨-, rfl⟩ | ⟨-, hn₁⟩
      · cases hr
      · obtain ⟨n₂, m₂, hn₂, hon₂, hr₂⟩ := h.last n₁ m₁ r hn₁ hon₁ hr
        exact ⟨n₂, m₂, hkeep n₂ m₂ _ (fun r => by rw [hpc]; nofun) hn₂ hr₂, hon₂, hr₂⟩
    · exact Nat.le_refl _
  | @diverged r₀ hpc hin hrev =>
    have hw : w.inputs m.view = c.world.inputs m.view := hin m.view
    refine ⟨⟨fun n₁ m₁ r hn₁ hon₁ hr => ?_, fun n₁ m₁ r hn₁ hon₁ hr => ?_,
      fun n₁ m₁ r hn₁ hon₁ hr => ?_⟩, ?_⟩ <;> simp only [hw]
    · rcases getElem?_set_cases hn hn₁ with ⟨-, rfl⟩ | ⟨-, hn₁⟩
      · rcases hr with hr | hr <;> cases hr
        exact h.took n m r₀ hn ⟨rfl, rfl⟩ (.inl hpc)
      · exact h.took n₁ m₁ r hn₁ hon₁ hr
    · rcases getElem?_set_cases hn hn₁ with ⟨-, rfl⟩ | ⟨-, hn₁⟩
      · cases hr
      · exact h.done n₁ m₁ r hn₁ hon₁ hr
    · rcases getElem?_set_cases hn hn₁ with ⟨-, rfl⟩ | ⟨-, hn₁⟩
      · cases hr
      · obtain ⟨n₂, m₂, hn₂, hon₂, hr₂⟩ := h.last n₁ m₁ r hn₁ hon₁ hr
        exact ⟨n₂, m₂, hkeep n₂ m₂ _ (fun r => by rw [hpc]; nofun) hn₂ hr₂, hon₂, hr₂⟩
    · exact Nat.le_refl _
  | @stored r₀ hpc hin hrev =>
    have hw : w.inputs m.view = (c.world.inputs m.view).store m.key m.value r₀ :=
      (hin m.view).trans (if_pos rfl)
    have hlt := h.took n m r₀ hn ⟨rfl, rfl⟩ (.inr hpc)
    refine ⟨⟨fun n₁ m₁ r hn₁ hon₁ hr => ?_, fun n₁ m₁ r hn₁ hon₁ hr => ?_,
      fun n₁ m₁ r hn₁ hon₁ hr => ⟨n, _, hself, ⟨rfl, rfl⟩, ?_⟩⟩, ?_⟩ <;>
        simp only [hw, Inputs.touch_store_self, Inputs.get_store_self]
    · rcases getElem?_set_cases hn hn₁ with ⟨-, rfl⟩ | ⟨hne, hn₁⟩
      · rcases hr with hr | hr <;> cases hr
      · exact hturn r₀ hpc n₁ m₁ r hne hn₁ hon₁ hr
    · rcases getElem?_set_cases hn hn₁ with ⟨-, rfl⟩ | ⟨-, hn₁⟩
      · cases hr
        exact ⟨Nat.le_refl _, fun _ => rfl⟩
      · -- what was returned before is below the new stamp
        have hle := Nat.lt_of_le_of_lt (h.done n₁ m₁ r hn₁ hon₁ hr).1 hlt
        exact ⟨Nat.le_of_lt hle, fun heq => absurd heq (Nat.ne_of_lt hle)⟩
    · exact Nat.le_of_lt hlt

/-- **A step of a run whose calls on the slot store in turn.** -/
theorem InTurn.step (h : InTurn i k c) (hd : Dated c) (hs : Config.step S c l = some c')
    (hturn : StoresInTurn i k c l) :
    InTurn i k c' ∧ (c.world.inputs i).touch k ≤ (c'.world.inputs i).touch k := by
  cases inputStep_of_step hs with
  | quiet hin hrev hcount hm =>
    refine h.of_same (congrFun (hin i) k) (fun n m hn hon => ?_) fun n m r hn hon hr => ?_
    · rw [hm] at hn
      exact .inl hn
    · rw [hm]
      exact hn
  | bump hview =>
    exact h.of_same (congrFun (World.inputs_modifyRuntime ..) k) (fun n m hn _ => .inl hn)
      fun n m r hn _ _ => hn
  | @mutate view key value hview =>
    obtain ⟨-, -, hslot, -⟩ := dated_mutateWorld view key value hd.touch_le
    exact h.of_same (hslot i k hturn) (fun n m hn _ => .inl hn) fun n m r hn _ _ => hn
  | @begin view key value hview =>
    refine h.of_same rfl (fun n m hn hon => ?_) fun n m r hn hon hr => ?_
    · rw [List.getElem?_append] at hn
      split at hn
      · exact .inl hn
      · obtain rfl := List.mem_singleton.mp (List.mem_of_getElem? hn)
        exact .inr (.inl rfl)
    · rw [List.getElem?_append_left (List.getElem?_eq_some_iff.mp hn).1]
      exact hn
  | @advance n m m' w hn hm hcount =>
    by_cases hon : m.On i k
    · exact h.advance hd hn hm hon fun r hpc => hturn m r hn hon hpc
    · refine h.of_same (hm.slot hon) (fun n₁ m₁ hn₁ hon₁ => ?_) fun n₁ m₁ r hn₁ hon₁ _ => ?_
      · rcases getElem?_set_cases hn hn₁ with ⟨-, rfl⟩ | ⟨-, hn₁⟩
        · exact absurd ((hm.on_iff i k).mp hon₁) hon
        · exact .inl hn₁
      · have hne : n₁ ≠ n := by
          rintro rfl
          rw [hn] at hn₁
          cases hn₁
          exact hon hon₁
        exact (List.getElem?_set_ne hne.symm).trans hn₁
  | snapshot =>
    rcases eq_or_ne i c.world.viewCount with rfl | hi
    · -- the slot of the new view, on which there was no call
      have hnone : ∀ (n : Nat) (m : Mutator V), c.mutators[n]? = some m →
          ¬ m.On c.world.viewCount k := fun n m hn hon =>
        Nat.ne_of_lt (hd.views m (List.mem_of_getElem? hn)) hon.1
      refine ⟨⟨fun n m r hn hon => absurd hon (hnone n m hn),
        fun n m r hn hon => absurd hon (hnone n m hn),
        fun n m r hn hon => absurd hon (hnone n m hn)⟩, ?_⟩
      rw [hd.unborn _ k (Nat.le_refl _)]
      exact Nat.zero_le _
    · have hin : c.world.snapshot.inputs i = c.world.inputs i :=
        (World.inputs_snapshot ..).trans (if_neg hi)
      exact h.of_same (congrFun hin k) (fun n m hn _ => .inl hn) fun n m r hn _ _ => hn

/-- **A slot whose calls store in the order of their revisions keeps the latest.**  In every
interleaving, the revision it is stamped with never decreases, and once all calls on it have
returned, it has the content and is stamped with the revision of the call that returned the greatest
revision. -/
theorem slot_keeps_the_latest {ls : List (Label V)}
    (h : Trans.Steps (Config.step S) (fun c l _ => StoresInTurn i k c l) init ls c) :
    (∀ ls₁ m, ls₁ <+: ls → Trans.run (Config.step S) init ls₁ = some m →
      (m.world.inputs i).touch k ≤ (c.world.inputs i).touch k) ∧
    ((∀ m ∈ c.mutators, m.On i k → ∃ r, m.pc = .done r) →
      ∀ m ∈ c.mutators, m.On i k → ∀ r, m.pc = .done r →
        (∀ m' ∈ c.mutators, m'.On i k → ∀ r', m'.pc = .done r' → r' ≤ r) →
          (c.world.inputs i).get k = m.value ∧ (c.world.inputs i).touch k = r) := by
  have hinv := h.invariant (I := fun c => Dated c ∧ InTurn i k c) ⟨dated_init, inTurn_init⟩
    fun m l m' hI hl hok => ⟨hI.1.step hl, (hI.2.step hI.1 hl hok).1⟩
  constructor
  · intro ls₁ m hprefix hrun
    exact h.from_prefix (I := fun c => Dated c ∧ InTurn i k c)
      (R := fun m c => (m.world.inputs i).touch k ≤ (c.world.inputs i).touch k)
      ⟨dated_init, inTurn_init⟩ (fun _ => Nat.le_refl _) (fun _ _ _ => Nat.le_trans)
      (fun m l m' hI hl hok => ⟨⟨hI.1.step hl, (hI.2.step hI.1 hl hok).1⟩,
        (hI.2.step hI.1 hl hok).2⟩) hprefix hrun
  · intro _ m hm hon r hr hgreatest
    obtain ⟨n, hn⟩ := List.mem_iff_getElem?.mp hm
    obtain ⟨hle, hget⟩ := hinv.2.done n m r hn hon hr
    obtain ⟨n', m', hn', hon', hr'⟩ := hinv.2.last n m r hn hon hr
    have hge := hgreatest m' (List.mem_of_getElem? hn') hon' _ hr'
    have heq := Nat.le_antisymm hle hge
    exact ⟨hget heq, heq.symm⟩

end turns

/-! ### Calls that store in the other order -/

namespace OutOfTurn

open Cancellation (x schema)

/-- Two calls of `set` on the slot `x`.  The first takes revision 1, the second takes revision 2
and stores. -/
def overtaken : List (Label Nat) :=
  [.begin 0 x (some 10), .begin 0 x (some 20), .advance 0, .advance 0, .advance 1, .advance 1,
    .advance 1, .advance 1]

/-- The first call stores. -/
def late : List (Label Nat) := [.advance 0, .advance 0]

/-- **The stamp decreases, and the earlier call has the last word.** -/
theorem later_revision_is_overwritten :
    ∃ m c, Trans.run (Config.step schema) init overtaken = some m ∧
    Trans.run (Config.step schema) m late = some c ∧ (m.world.inputs 0).touch x = 2 ∧
      c.mutators.map (·.pc) = [.done 1, .done 2] ∧ (c.world.inputs 0).touch x = 1 ∧
        (c.world.inputs 0).get x = some 10 :=
  ⟨_, _, rfl, rfl, rfl, rfl, rfl, rfl⟩

/-- The first call stores before the second. -/
def inTurn : List (Label Nat) :=
  [.begin 0 x (some 10), .begin 0 x (some 20), .advance 0, .advance 0, .advance 1, .advance 1,
    .advance 0, .advance 0, .advance 1, .advance 1]

deriving instance DecidableEq for Mutator

/-- A check that no call stores before one with a smaller revision. -/
def turn (c : Config Nat) : Label Nat → Bool
  | .advance n =>
    match c.mutators[n]? with
    | none => true
    | some m =>
      match m.pc with
      | .store r => c.mutators.zipIdx.all fun (m', n') =>
        n' == n || match m'.pc with
          | .diverge r' | .store r' => decide (r < r')
          | _ => true
      | _ => true
  | .mutate .. => false
  | _ => true

theorem storesInTurn_of_turn {c : Config Nat} {l : Label Nat} (h : turn c l = true) (i : ViewId)
    (k : DynKey) : StoresInTurn i k c l := by
  cases l with
  | advance n =>
    intro m r hn hon hpc n' m' r' hne hn' hon' hr'
    simp only [turn, hn, hpc, List.all_eq_true] at h
    have hm' := h (m', n') (List.mem_zipIdx_iff_getElem?.mpr hn')
    rw [Bool.or_eq_true, beq_iff_eq] at hm'
    have hlt := hm'.resolve_left hne
    rcases hr' with hr' | hr' <;> simpa [hr'] using hlt
  | mutate view key value => cases h
  | _ => trivial

/-- The second call has the last word. -/
theorem later_revision_is_kept : ∃ c, Trans.run (Config.step schema) init inTurn = some c ∧
    c.mutators = [⟨0, x, some 10, .done 1⟩, ⟨0, x, some 20, .done 2⟩] ∧
      (c.world.inputs 0).get x = some 20 ∧ (c.world.inputs 0).touch x = 2 := by
  have hrun : (Trans.run (fun c l => if turn c l then Config.step schema c l else none) init
      inTurn).any (fun c =>
        c.mutators = [⟨0, x, some 10, .done 1⟩, ⟨0, x, some 20, .done 2⟩]) := by decide +kernel
  obtain ⟨c, hc, hend⟩ := (Option.any_eq_true ..).mp hrun
  have hmutators := of_decide_eq_true hend
  have hsteps := Trans.Steps.of_checked_run _ hc
  have hinTurn := hsteps.mono fun m l _ hok => storesInTurn_of_turn hok.2 0 x
  refine ⟨c, hsteps.run, hmutators, ?_⟩
  refine (slot_keeps_the_latest hinTurn).2 ?_ ⟨0, x, some 20, .done 2⟩ ?_ ⟨rfl, rfl⟩ 2 rfl ?_ <;>
    rw [hmutators]
  · simp
  · simp
  · simp

end OutOfTurn

end Picante

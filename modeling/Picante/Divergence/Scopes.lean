/-
# The scopes of a family

The views of a family share one scope, its id.  A snapshot whose inputs are changed takes a scope
of its own, a number that nobody has been given: from then on what it stores in the shared cache
and what it files in the registry is where no other view looks.

* `World.Scoped` -- a scope other than the family's is that of one view only, and nothing is
  stored under a number that was not given out (`scoped_step`).
* `World.scope_mutateWorld` -- the first change of a snapshot gives it a number, and nothing else
  ever changes its scope.
* `World.SameAt` -- two worlds that a view cannot tell apart.  The steps of accesses on views of
  other scopes (`TaskStep.elsewhere`), and the operations on other views (`sameAt_mutateWorld`,
  `sameAt_snapshot`), lead from one to the other.
-/
import Picante.Cutoff.OneView

namespace Picante

open Config

variable {V : Type}

/-! ## 1. Giving out numbers -/

/-- Every scope has been given out, one that is not the family's to one view, and nothing is
stored under a number that has not. -/
structure World.Scoped (w : World V) : Prop where
  next : 1 < w.nextRuntimeId
  family : ∀ i, (w.origin i).1 = 1
  given : ∀ i, w.scope i < w.nextRuntimeId
  own : ∀ i j, w.scope i = w.scope j → w.scope i ≠ 1 → i = j
  unused : ∀ σ k, w.nextRuntimeId ≤ σ → w.shared σ k = none

theorem scoped_init : (World.init : World V).Scoped where
  next := Nat.lt_succ_self 1
  family _ := rfl
  given _ := Nat.lt_succ_self 1
  own _ _ _ h := absurd rfl h
  unused _ _ _ := rfl

namespace World

variable {w w' : World V}

/-- A view with a scope of its own shares it with no other. -/
theorem Scoped.ne (h : w.Scoped) {i j : ViewId} (hi : w.scope i ≠ 1) (hj : j ≠ i) :
    w.scope j ≠ w.scope i :=
  fun heq => hj (h.own i j heq.symm hi).symm

/-- No scope, identity or number changes, and what is stored is stored under a scope. -/
theorem Scoped.congr (h : w.Scoped) (hscope : ∀ i, w'.scope i = w.scope i)
    (horigin : ∀ i, w'.origin i = w.origin i) (hnext : w'.nextRuntimeId = w.nextRuntimeId)
    (hshared : ∀ σ k, w.nextRuntimeId ≤ σ → w'.shared σ k = w.shared σ k) : w'.Scoped where
  next := hnext ▸ h.next
  family i := (congrArg Prod.fst (horigin i)).trans (h.family i)
  given i := by
    rw [hscope, hnext]
    exact h.given i
  own i j heq hne := by
    rw [hscope, hscope] at heq
    rw [hscope] at hne
    exact h.own i j heq hne
  unused σ k hσ := by
    rw [hnext] at hσ
    exact (hshared σ k hσ).trans (h.unused σ k hσ)

/-- The scopes once view `i` has been marked as divergent: its own changes if it is a snapshot
that has not diverged. -/
theorem scope_markDivergent (hnext : w.nextRuntimeId ≠ 0) (i j : ViewId) :
    (w.markDivergent i).scope j =
      if j = i ∧ (w.views i).runtime.divergesNow then w.nextRuntimeId else w.scope j := by
  refine (scope_modifyRuntime ..).trans ?_
  by_cases hj : j = i
  · subst hj
    by_cases hd : (w.views j).runtime.divergesNow
    · simp [hd, Runtime.cacheScopeId, hnext]
    · simp [hd, World.scope]
  · simp [hj]

theorem Scoped.markDivergent (h : w.Scoped) (i : ViewId) : (w.markDivergent i).Scoped := by
  have hscope := scope_markDivergent (w := w) (Nat.ne_of_gt (Nat.lt_of_succ_lt h.next)) i
  by_cases hd : (w.views i).runtime.divergesNow
  · have hnum : (w.markDivergent i).nextRuntimeId = w.nextRuntimeId + 1 := by
      simp [World.markDivergent, hd]
    have hscope' : ∀ j, (w.markDivergent i).scope j =
        if j = i then w.nextRuntimeId else w.scope j := fun j => by
      rw [hscope]
      simp [hd]
    refine ⟨?_, fun j => ?_, fun j => ?_, fun j j' heq hne => ?_, fun σ k hσ => ?_⟩
    · rw [hnum]
      exact Nat.lt_succ_of_lt h.next
    · rw [origin_markDivergent]
      exact h.family j
    · rw [hscope', hnum]
      split
      · exact Nat.lt_succ_self _
      · exact Nat.lt_succ_of_lt (h.given j)
    · -- the new number is the scope of no other view
      have hnew : ∀ j, w.scope j ≠ w.nextRuntimeId := fun j => Nat.ne_of_lt (h.given j)
      rw [hscope', hscope'] at heq
      rw [hscope'] at hne
      split at heq
      · next hj =>
        split at heq
        · next hj' => exact hj.trans hj'.symm
        · exact absurd heq.symm (hnew j')
      · next hj =>
        rw [if_neg hj] at hne
        split at heq
        · exact absurd heq (hnew j)
        · exact h.own j j' heq hne
    · rw [hnum] at hσ
      exact h.unused σ k (Nat.le_of_succ_le hσ)
  · refine h.congr (fun j => ?_) (fun j => origin_markDivergent ..) ?_ fun _ _ _ => rfl
    · rw [hscope]
      simp [hd]
    · simp [World.markDivergent, hd]

theorem scope_bumpRevision (w : World V) (i j : ViewId) :
    (w.modifyRuntime i (·.bumpRevision)).scope j = w.scope j := by
  rw [scope_modifyRuntime]
  split
  · next h => subst h; rfl
  · rfl

theorem Scoped.bump (h : w.Scoped) (i : ViewId) :
    (w.modifyRuntime i (·.bumpRevision)).Scoped :=
  h.congr (w.scope_bumpRevision i) (fun _ => origin_bumpRevision ..) rfl fun _ _ _ => rfl

theorem Scoped.storeInput (h : w.Scoped) (i : ViewId) (k : DynKey) (v : Option V)
    (r : Revision) : (w.storeInput i k v r).Scoped :=
  h.congr (fun _ => scope_storeInput ..) (fun _ => origin_storeInput ..) rfl fun _ _ _ => rfl

theorem Scoped.snapshot (h : w.Scoped) : w.snapshot.Scoped where
  next := h.next
  family i := by
    rw [origin_snapshot]
    split
    · exact h.family 0
    · exact h.family i
  given i := by
    rw [scope_snapshot]
    split
    · rw [h.family]
      exact h.next
    · exact h.given i
  own i j heq hne := by
    rw [scope_snapshot] at hne
    split at hne
    · exact absurd (h.family 0) hne
    · next hi =>
      rw [scope_snapshot, scope_snapshot, if_neg hi] at heq
      split at heq
      · exact absurd (heq.trans (h.family 0)) hne
      · exact h.own i j heq hne
  unused := h.unused

end World

section steps

variable [DecidableEq V] {S : Schema V} {w w' : World V} {view : ViewId} {task : TaskId}
  {below : List (Activation V)} {a : Activation V} {m : Move V}

omit [DecidableEq V] in
theorem Touched.nextRuntimeId {a' : Activation V} {src : Source V} {rest : List Dep}
    {r : PicanteResult Revision} (h : Touched w view a src rest r w' a') :
    w'.nextRuntimeId = w.nextRuntimeId := by
  cases h <;> rfl

/-- **An access stores under the scope of its view**, and takes no number. -/
theorem ActStep.stores (h : ActStep S w view task below a w' m) :
    w'.nextRuntimeId = w.nextRuntimeId ∧
      ∀ σ, σ ≠ w.scope view → w'.shared σ = w.shared σ := by
  cases h with
  | touchInput _ _ ht | touchInterned _ _ _ ht =>
    exact ⟨ht.nextRuntimeId, fun _ _ => by rw [ht.same.shared]⟩
  | sharedMiss _ hw _ =>
    rcases hw with rfl | rfl
    · exact ⟨rfl, fun _ _ => rfl⟩
    · exact ⟨rfl, fun σ hσ => Function.update_of_ne hσ _ _⟩
  | putShared _ => exact ⟨rfl, fun σ hσ => Function.update_of_ne hσ _ _⟩
  | _ => exact ⟨rfl, fun _ _ => rfl⟩

omit [DecidableEq V] in
theorem Resumed.nextRuntimeId {p p' : Activation V} {r : AccessResult V}
    (h : Resumed w view p r w' p') : w'.nextRuntimeId = w.nextRuntimeId := by
  cases h with
  | touched _ ht => exact ht.nextRuntimeId
  | answered _ | idle _ => rfl

variable {c c' : Config V} {t : TaskId}

theorem Config.TaskStep.stores (h : TaskStep S c t c') :
    c'.world.nextRuntimeId = c.world.nextRuntimeId ∧
      ∀ σ, σ ≠ c.world.scope (c.tasks t).view → c'.world.shared σ = c.world.shared σ := by
  cases h with
  | goto _ ha | call _ ha | ret _ ha => exact ha.stores
  | resume _ ha hp =>
    obtain ⟨hnext, hshared⟩ := ha.stores
    exact ⟨hp.nextRuntimeId.trans hnext, fun σ hσ =>
      (congrFun hp.same.shared σ).trans (hshared σ hσ)⟩

theorem World.Scoped.mutate (h : w.Scoped) (i : ViewId) (k : DynKey) (value : Option V) :
    (mutateWorld w i k value).Scoped := by
  unfold mutateWorld
  split
  · exact h
  · exact ((h.bump i).markDivergent i).storeInput i k value _

theorem World.Scoped.stepMutator {x x' : Mutator V} (h : w.Scoped)
    (hs : stepMutator w x = some (w', x')) : w'.Scoped := by
  unfold Config.stepMutator at hs
  cases hpc : x.pc with
  | check =>
    simp only [hpc] at hs
    split at hs <;> (cases hs; exact h)
  | bump => simp only [hpc] at hs; cases hs; exact h.bump _
  | diverge r => simp only [hpc] at hs; cases hs; exact h.markDivergent _
  | store r => simp only [hpc] at hs; cases hs; exact h.storeInput ..
  | done r => simp [hpc] at hs

omit [DecidableEq V] in
theorem World.Scoped.cancelGuards (h : w.Scoped) (stack : List (Activation V)) :
    (cancelGuards w stack).Scoped := by
  induction stack generalizing w with
  | nil => exact h
  | cons a stack ih =>
    unfold Config.cancelGuards
    cases a.guard with
    | none => exact ih h
    | some g =>
      exact ih (w := w.modifyRegistry (·.cancel g)) ⟨h.next, h.family, h.given, h.own, h.unused⟩

/-- **Scopes stay the views' own**, whatever happens. -/
theorem scoped_step {l : Label V} (h : c.world.Scoped) (hs : step S c l = some c') :
    c'.world.Scoped := by
  cases l with
  | spawn view key want =>
    simp only [step] at hs
    split at hs <;> cases hs
    exact h
  | step t =>
    have hstep := taskStep_of_step hs
    obtain ⟨hnext, hshared⟩ := hstep.stores
    have hfix := hstep.fixed
    refine h.congr hfix.scope hfix.origin hnext fun σ k hσ => ?_
    rw [hshared σ (Nat.ne_of_gt (Nat.lt_of_lt_of_le (h.given _) hσ))]
  | drop t =>
    simp only [step, dropTask] at hs
    split at hs
    · cases hs
    · split at hs <;> cases hs
      exact h.cancelGuards _
  | mutate view key value =>
    simp only [step] at hs
    split at hs <;> cases hs
    exact h.mutate view key value
  | «begin» view key value =>
    simp only [step] at hs
    split at hs <;> cases hs
    exact h
  | advance n =>
    simp only [step] at hs
    split at hs
    · cases hs
    · split at hs
      · cases hs
      · next hw =>
        cases hs
        exact h.stepMutator hw
  | intern kind value => cases hs; exact ⟨h.next, h.family, h.given, h.own, h.unused⟩
  | bump view =>
    simp only [step] at hs
    split at hs <;> cases hs
    exact h.bump view
  | snapshot => cases hs; exact h.snapshot

/-! ## 2. What a change does to a scope -/

omit [DecidableEq V] in
theorem World.divergesNow_bumpRevision (w : World V) (i j : ViewId) :
    ((w.modifyRuntime i (·.bumpRevision)).views j).runtime.divergesNow =
      (w.views j).runtime.divergesNow := by
  by_cases hj : j = i
  · subst hj; simp [World.modifyRuntime, World.modifyView, Runtime.bumpRevision,
      Runtime.divergesNow]
  · simp [World.modifyRuntime, World.modifyView, hj]

/-- **The scopes after a change**: the first one gives a snapshot the next number. -/
theorem World.scope_mutateWorld (h : w.Scoped) {i : ViewId} {k : DynKey} {value : Option V}
    (hchange : noChange (w.inputs i) k value = false) (j : ViewId) :
    (mutateWorld w i k value).scope j =
      if j = i ∧ (w.views i).runtime.divergesNow then w.nextRuntimeId else w.scope j := by
  have hnext : (w.modifyRuntime i (·.bumpRevision)).nextRuntimeId ≠ 0 :=
    Nat.ne_of_gt (Nat.lt_of_succ_lt h.next)
  unfold mutateWorld
  rw [if_neg (by simp [hchange])]
  simp only [World.scope_storeInput]
  rw [World.scope_markDivergent hnext, World.divergesNow_bumpRevision, World.scope_bumpRevision]
  rfl

end steps

/-! ## 3. What a view can see -/

/-- A view cannot tell the worlds apart: its runtime, its slots, its cells and the shared records
of its scope are the same, and so are the interned values. -/
structure World.SameAt (s : ViewId) (w w' : World V) : Prop where
  rev : w'.rev s = w.rev s
  scope : w'.scope s = w.scope s
  origin : w'.origin s = w.origin s
  inputs : w'.inputs s = w.inputs s
  cell : ∀ k, w'.cell s k = w.cell s k
  interned : w'.interned = w.interned
  shared : w'.shared (w.scope s) = w.shared (w.scope s)

section same

variable [DecidableEq V] {S : Schema V} {w w' : World V} {c c' : Config V} {t : TaskId}
  {s : ViewId}

/-- **An access on another view, of another scope, changes nothing that a view can see.** -/
theorem Config.TaskStep.elsewhere (h : TaskStep S c t c') (hview : (c.tasks t).view ≠ s)
    (hscope : c.world.scope (c.tasks t).view ≠ c.world.scope s) :
    c.world.SameAt s c'.world := by
  have hfix := h.fixed
  refine ⟨hfix.rev s, hfix.scope s, hfix.origin s, hfix.inputs s, fun k => ?_, hfix.interned,
    h.stores.2 _ hscope.symm⟩
  have hne : ∀ {k'}, ¬ (s = (c.tasks t).view ∧ k = k') := fun heq => hview heq.1.symm
  cases h with
  | goto _ ha | call _ ha | ret _ ha => exact ha.cell_other hne
  | resume _ ha hp => exact (hp.same.cell s k).trans (ha.cell_other hne)

omit [DecidableEq V] in
theorem World.sameAt_modifyRuntime (w : World V) {i : ViewId} (hi : i ≠ s)
    (f : Runtime → Runtime) : w.SameAt s (w.modifyRuntime i f) := by
  refine ⟨?_, ?_, ?_, World.inputs_modifyRuntime .., fun _ => World.cell_modifyRuntime .., rfl, rfl⟩
  · rw [World.rev_modifyRuntime, if_neg hi.symm]
  · rw [World.scope_modifyRuntime, if_neg hi.symm]
  · rw [World.origin_modifyRuntime, if_neg hi.symm]

theorem World.sameAt_mutateWorld (w : World V) {i : ViewId} (hi : i ≠ s) (k : DynKey)
    (value : Option V) : w.SameAt s (mutateWorld w i k value) := by
  unfold mutateWorld
  split
  · exact ⟨rfl, rfl, rfl, rfl, fun _ => rfl, rfl, rfl⟩
  · have hbump := w.sameAt_modifyRuntime hi (·.bumpRevision)
    have hmark := (w.modifyRuntime i (·.bumpRevision)).sameAt_modifyRuntime hi
      (·.markDivergent (w.modifyRuntime i (·.bumpRevision)).nextRuntimeId)
    refine ⟨?_, ?_, ?_, ?_, fun k' => ?_, rfl, rfl⟩
    · exact (World.rev_storeInput ..).trans (hmark.rev.trans hbump.rev)
    · exact (World.scope_storeInput ..).trans (hmark.scope.trans hbump.scope)
    · exact (World.origin_storeInput ..).trans (hmark.origin.trans hbump.origin)
    · refine (World.inputs_storeInput ..).trans ?_
      rw [if_neg hi.symm]
      exact hmark.inputs.trans hbump.inputs
    · exact (World.cell_storeInput ..).trans ((hmark.cell k').trans (hbump.cell k'))

omit [DecidableEq V] in
theorem World.sameAt_snapshot (w : World V) (hs : s < w.viewCount) : w.SameAt s w.snapshot := by
  have hne : s ≠ w.viewCount := Nat.ne_of_lt hs
  refine ⟨?_, ?_, ?_, ?_, fun k => ?_, rfl, rfl⟩
  · rw [World.rev_snapshot, if_neg hne]
  · rw [World.scope_snapshot, if_neg hne]
  · rw [World.origin_snapshot, if_neg hne]
  · rw [World.inputs_snapshot, if_neg hne]
  · rw [World.cell_snapshot, if_neg hne]

end same

end Picante

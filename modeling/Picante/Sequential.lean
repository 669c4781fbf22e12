/-
# Sequential runs

In a sequential run every operation has ended before the next one starts.  As interleavings
these are the runs whose steps are all `Sequential`: a task takes a step, or no task is running
and an operation happens as a whole.

* `runOps_steps` -- an executed sequential program is such a run, and ends with no task running.
* `Sequential.single` -- at most one task is running at any time.
* `not_parked_of_single` -- an access that is alone is never parked on a cell somebody minds:
  that somebody would be below it on its own stack, and the access would have been a cycle.
-/
import Picante.Control
import Mathlib.Data.List.Nodup

namespace Picante

variable {V : Type}

/-! ## 1. Sequential steps -/

/-- No task is running. -/
def Config.Idle (c : Config V) : Prop := ∀ t, ¬ c.Pending t

/-- The label is an operation that happens as a whole, or the start of an access. -/
def Label.isOperation : Label V → Bool
  | .spawn .. | .mutate .. | .intern .. | .bump _ | .snapshot => true
  | _ => false

/-- A step of a sequential run. -/
def Sequential (c : Config V) (l : Label V) (_ : Config V) : Prop :=
  (∃ t, l = .step t) ∨ c.Idle ∧ l.isOperation

/-- A step of a sequential run all of whose operations are among `P`. -/
def SequentialIn (P : Label V → Prop) (c : Config V) (l : Label V) (_ : Config V) : Prop :=
  (∃ t, l = .step t) ∨ c.Idle ∧ l.isOperation ∧ P l

theorem SequentialIn.sequential {P : Label V → Prop} {c c' : Config V} {l : Label V}
    (h : SequentialIn P c l c') : Sequential c l c' :=
  h.imp id fun ⟨hidle, hop, _⟩ => ⟨hidle, hop⟩

/-- What an operation starts with. -/
def Config.Op.label : Config.Op V → Label V
  | .mutate view key value => .mutate view key value
  | .intern kind value => .intern kind value
  | .bump view => .bump view
  | .snapshot => .snapshot
  | .access view key want => .spawn view key want

namespace Config

theorem idle_init : (init : Config V).Idle := fun _ h => h rfl

variable [DecidableEq V] {S : Schema V} {c c' : Config V}

/-- A step of a task leaves the other tasks as they are. -/
theorem TaskStep.tasks_ne {t t' : TaskId} (h : TaskStep S c t c') (ht : t' ≠ t) :
    c'.tasks t' = c.tasks t' := by
  cases h <;> simp [setTask, Function.update_of_ne ht]

theorem TaskStep.pending_ne {t t' : TaskId} (h : TaskStep S c t c') (ht : t' ≠ t) :
    c'.Pending t' ↔ c.Pending t' := by
  unfold Pending
  rw [h.tasks_ne ht]

/-- A task is for the same access all along, and takes steps only while it is running. -/
theorem TaskStep.same_access {t : TaskId} (h : TaskStep S c t c') :
    c.Pending t ∧ (c'.tasks t).view = (c.tasks t).view ∧ (c'.tasks t).key = (c.tasks t).key ∧
      c'.taskCount = c.taskCount := by
  cases h with
  | goto hst _ | call hst _ | ret hst _ | resume hst _ _ =>
    refine ⟨pending_of_stack hst, ?_, ?_, rfl⟩ <;> simp [setTask]

/-- A sequential run up to the last step of task `t`, which has then returned. -/
structure EndsWith (P : Label V → Prop) (S : Schema V) (c : Config V) (t : TaskId)
    (ls : List (Label V)) (m c' : Config V) : Prop where
  run : Trans.Steps (step S) (SequentialIn P) c ls m
  last : step S m (.step t) = some c'
  view : (m.tasks t).view = (c.tasks t).view
  key : (m.tasks t).key = (c.tasks t).key
  taskCount : c'.taskCount = c.taskCount

/-- **Giving a task its steps is a sequential run**, that ends with the step in which it
returns. -/
theorem finish_steps {P : Label V → Prop} {t : TaskId} {fuel : Nat}
    (h : finish S t fuel c = some c') (hpend : c.Pending t)
    (hothers : ∀ t', t' ≠ t → ¬ c.Pending t') :
    ∃ ls m, EndsWith P S c t ls m c' ∧ c'.Idle := by
  induction fuel generalizing c with
  | zero => cases h
  | succ fuel ih =>
    unfold finish at h
    cases hst : (c.tasks t).stack with
    | nil => exact absurd hst hpend
    | cons a below =>
      simp only [hst] at h
      cases hs : stepTask S c t with
      | none => simp [hs] at h
      | some m =>
        simp only [hs] at h
        have hstep := taskStep_of_step hs
        have hothers' : ∀ t', t' ≠ t → ¬ m.Pending t' :=
          fun t' ht hp => hothers t' ht ((hstep.pending_ne ht).mp hp)
        have hl : step S c (.step t) = some m := hs
        obtain ⟨-, hview, hkey, hcount⟩ := hstep.same_access
        by_cases hm : m.Pending t
        · obtain ⟨ls, m', he, hidle⟩ := ih h hm hothers'
          refine ⟨[.step t] ++ ls, m', ⟨?_, he.last, he.view.trans hview, he.key.trans hkey,
            he.taskCount.trans hcount⟩, hidle⟩
          exact (Trans.Steps.single hl (.inl ⟨t, rfl⟩)).trans he.run
        · -- nothing is left to do
          obtain rfl : m = c' := by
            have hnil : (m.tasks t).stack = [] := not_not.mp hm
            cases fuel with
            | zero => cases h
            | succ fuel => simpa [finish, hnil] using h
          refine ⟨[], c, ⟨.nil, hl, rfl, rfl, hcount⟩, fun t' => ?_⟩
          by_cases ht : t' = t
          · exact ht ▸ hm
          · exact hothers' t' ht

/-- An access that was started is the only one. -/
theorem spawned_alone {view : ViewId} {key : DynKey} {want : Bool}
    (h : step S c (.spawn view key want) = some c') (hidle : c.Idle) :
    c'.tasks c.taskCount = ⟨view, key, want, [.enter key], none⟩ ∧
      c'.taskCount = c.taskCount + 1 ∧ ∀ t, t ≠ c.taskCount → ¬ c'.Pending t := by
  simp only [step] at h
  split at h
  · cases h
    refine ⟨Function.update_self .., rfl, fun t ht hp => hidle t ?_⟩
    unfold Pending at hp ⊢
    simpa [Function.update_of_ne ht] using hp
  · cases h

/-- **An access is a sequential run**, that ends with the step in which it returns. -/
theorem runOp_access {P : Label V → Prop} {fuel : Nat} {view : ViewId} {key : DynKey}
    {want : Bool} (h : runOp S fuel c (.access view key want) = some c') (hidle : c.Idle)
    (hP : P (.spawn view key want)) :
    ∃ ls m, Trans.Steps (step S) (SequentialIn P) c ls m ∧
      step S m (.step c.taskCount) = some c' ∧ (m.tasks c.taskCount).view = view ∧
      (m.tasks c.taskCount).key = key ∧ c'.taskCount = c.taskCount + 1 ∧ c'.Idle := by
  unfold runOp at h
  cases hs : step S c (.spawn view key want) with
  | none => simp [hs] at h
  | some m =>
    simp only [hs] at h
    obtain ⟨htask, hcount, hothers⟩ := spawned_alone hs hidle
    have hpend : m.Pending c.taskCount := by
      unfold Pending
      rw [htask]
      exact nofun
    obtain ⟨ls, m', he, hidle'⟩ := finish_steps (P := P) h hpend hothers
    have hview := he.view
    have hkey := he.key
    rw [htask] at hview hkey
    exact ⟨[.spawn view key want] ++ ls, m',
      (Trans.Steps.single hs (.inr ⟨hidle, rfl, hP⟩)).trans he.run, he.last, hview, hkey,
      he.taskCount.trans hcount, hidle'⟩

/-- An operation is a sequential run. -/
theorem runOp_steps {P : Label V → Prop} {fuel : Nat} {op : Op V}
    (h : runOp S fuel c op = some c') (hidle : c.Idle) (hP : P op.label) :
    ∃ ls, Trans.Steps (step S) (SequentialIn P) c ls c' ∧ c'.Idle := by
  have whole : op.label.isOperation → step S c op.label = some c' → c'.tasks = c.tasks →
      ∃ ls, Trans.Steps (step S) (SequentialIn P) c ls c' ∧ c'.Idle := by
    intro hl hs htasks
    refine ⟨[op.label], .single hs (.inr ⟨hidle, hl, hP⟩), fun t ht => hidle t ?_⟩
    unfold Pending at ht ⊢
    rwa [htasks] at ht
  cases op with
  | mutate view key value =>
    have hs : step S c (.mutate view key value) = some c' := h
    refine whole rfl hs ?_
    simp only [step] at hs
    split at hs <;> cases hs
    rfl
  | intern kind value =>
    have hs : step S c (.intern kind value) = some c' := h
    refine whole rfl hs ?_
    cases hs
    rfl
  | bump view =>
    have hs : step S c (.bump view) = some c' := h
    refine whole rfl hs ?_
    simp only [step] at hs
    split at hs <;> cases hs
    rfl
  | snapshot =>
    have hs : step S c .snapshot = some c' := h
    refine whole rfl hs ?_
    cases hs
    rfl
  | access view key want =>
    obtain ⟨ls, m, hls, hlast, -, -, -, hidle'⟩ := runOp_access h hidle hP
    exact ⟨ls ++ [.step c.taskCount], .snoc hls hlast (.inl ⟨_, rfl⟩), hidle'⟩

/-- **A sequential program is a sequential run**, from no task running to no task running. -/
theorem runOps_steps {P : Label V → Prop} {fuel : Nat} {ops : List (Op V)}
    (h : runOps S fuel c ops = some c') (hidle : c.Idle) (hP : ∀ op ∈ ops, P op.label) :
    ∃ ls, Trans.Steps (step S) (SequentialIn P) c ls c' ∧ c'.Idle := by
  induction ops generalizing c with
  | nil => exact Option.some.inj h ▸ ⟨[], .nil, hidle⟩
  | cons op ops ih =>
    unfold runOps at h
    cases hop : runOp S fuel c op with
    | none => simp [hop] at h
    | some m =>
      simp only [hop] at h
      obtain ⟨ls, hls, hidle'⟩ := runOp_steps hop hidle (hP op (List.mem_cons_self ..))
      obtain ⟨ls', hls', hidle''⟩ := ih h hidle' fun op hop => hP op (List.mem_cons_of_mem _ hop)
      exact ⟨ls ++ ls', hls.trans hls', hidle''⟩

/-- A program is run one part after another. -/
theorem runOps_append {fuel : Nat} {ops ops' : List (Op V)} :
    runOps S fuel c (ops ++ ops') = (runOps S fuel c ops).bind (runOps S fuel · ops') := by
  induction ops generalizing c with
  | nil => rfl
  | cons op ops ih =>
    simp only [List.cons_append, runOps]
    cases runOp S fuel c op with
    | none => rfl
    | some m => exact ih

/-- The result of the last access that was started. -/
def lastResult (c : Config V) : Option (AccessResult V) := (c.tasks (c.taskCount - 1)).result

/-- **A program that ends with an access** is a sequential run up to the step in which that
access returns. -/
theorem runOps_access {P : Label V → Prop} {fuel : Nat} {ops : List (Op V)} {view : ViewId}
    {key : DynKey} {want : Bool} (h : runOps S fuel c (ops ++ [.access view key want]) = some c')
    (hidle : c.Idle) (hP : ∀ op ∈ ops, P op.label) (hP' : P (.spawn view key want)) :
    ∃ ls m t, Trans.Steps (step S) (SequentialIn P) c ls m ∧ step S m (.step t) = some c' ∧
      (m.tasks t).view = view ∧ (m.tasks t).key = key ∧ c'.taskCount = t + 1 ∧ c'.Idle := by
  rw [runOps_append] at h
  obtain ⟨m, hm, hlast⟩ := Option.bind_eq_some_iff.mp h
  obtain ⟨ls, hls, hidle'⟩ := runOps_steps hm hidle hP
  have hop : runOp S fuel m (.access view key want) = some c' := by
    unfold runOps at hlast
    cases hr : runOp S fuel m (.access view key want) with
    | none => simp [hr] at hlast
    | some m' =>
      simp only [hr, runOps, Option.some.injEq] at hlast
      rw [hlast]
  obtain ⟨ls', m', hls', hstep, hview, hkey, hcount, hidle''⟩ := runOp_access hop hidle' hP'
  exact ⟨ls ++ ls', m', m.taskCount, hls.trans hls', hstep, hview, hkey, hcount, hidle''⟩

end Config

/-! ## 2. One access at a time -/

/-- At most one task is running. -/
def Config.Single (c : Config V) : Prop := ∀ t t', c.Pending t → c.Pending t' → t = t'

theorem Config.Idle.single {c : Config V} (h : c.Idle) : c.Single :=
  fun t _ ht _ => absurd ht (h t)

section single

open Config

variable [DecidableEq V] {S : Schema V} {c c' : Config V}

/-- The step of a task starts no other. -/
theorem Config.TaskStep.single {t : TaskId} (hs : TaskStep S c t c') (h : c.Single) :
    c'.Single := by
  -- only a task that was running takes a step
  have hpend : c.Pending t := by
    cases hs with
    | goto hst _ | call hst _ | ret hst _ | resume hst _ _ => exact pending_of_stack hst
  have hback : ∀ t', c'.Pending t' → c.Pending t' := by
    intro t' ht'
    by_cases ht : t' = t
    · exact ht ▸ hpend
    · exact (hs.pending_ne ht).mp ht'
  exact fun t₁ t₂ h₁ h₂ => h t₁ t₂ (hback t₁ h₁) (hback t₂ h₂)

/-- A sequential step keeps it so that at most one task is running. -/
theorem Sequential.single {l : Label V} (hs : step S c l = some c')
    (hl : Sequential c l c') (h : c.Single) : c'.Single := by
  rcases hl with ⟨t, rfl⟩ | ⟨hidle, hop⟩
  · exact (taskStep_of_step hs).single h
  · have hback : ∀ t', c'.Pending t' → t' = c.taskCount := by
      intro t' ht'
      cases l with
      | spawn view key want =>
        simp only [step] at hs
        split at hs <;> cases hs
        refine Classical.byContradiction fun ht => hidle t' ?_
        unfold Pending at ht' ⊢
        simpa [Function.update_of_ne ht] using ht'
      | mutate view key value =>
        simp only [step] at hs
        split at hs <;> cases hs
        exact absurd ht' (hidle t')
      | intern kind value => cases hs; exact absurd ht' (hidle t')
      | bump view =>
        simp only [step] at hs
        split at hs <;> cases hs
        exact absurd ht' (hidle t')
      | snapshot => cases hs; exact absurd ht' (hidle t')
      | step t | drop t | begin view key value | advance m => cases hop
    exact fun t₁ t₂ h₁ h₂ => (hback t₁ h₁).trans (hback t₂ h₂).symm

omit [DecidableEq V] in
/-- Two accesses of one task to the same key are the same. -/
theorem Control.act_injective (hc : Control c) {t : TaskId} {d d' : Nat} {a a' : Activation V}
    (h : c.act t d = some a) (h' : c.act t d' = some a') (hkey : a.key = a'.key) : d = d' := by
  have hnodup := List.nodup_reverse.mpr (hc.nodup t)
  rw [← List.map_reverse] at hnodup
  have hlt : d < ((c.tasks t).stack.reverse.map (·.key)).length := by
    obtain ⟨hd, -⟩ := List.getElem?_eq_some_iff.mp h
    simpa using hd
  refine (List.getElem?_inj hlt hnodup).mp ?_
  unfold act atDepth at h h'
  rw [List.getElem?_map, List.getElem?_map, h, h']
  exact congrArg some hkey

omit [DecidableEq V] in
/-- **An access that is alone is not parked.** -/
theorem Control.not_parked_of_single (hc : Control c) (hsingle : c.Single) {i : ViewId}
    {k : DynKey} {t : TaskId} {d : Nat} : ¬ c.Parked i k t d := by
  intro hp
  obtain ⟨t', d', pc, ⟨a', ha', -, hk', rfl⟩, hpc⟩ := hc.minded i k t d hp
  obtain ⟨a, ha, -, hk, hpark⟩ := hp
  obtain rfl := hsingle t t' (pending_of_act ha) (pending_of_act ha')
  obtain rfl := hc.act_injective ha ha' (hk.trans hk'.symm)
  obtain rfl := Option.some.inj (ha.symm.trans ha')
  rw [hpark] at hpc
  cases hs : c.world.state i k <;> simp [hs, WillNotify, Pc.owns, Pc.minds, Pc.follows,
    Pc.retries, Pc.notifies] at hpc

/-- **In a sequential run without a failed shared revalidation the control invariant holds.** -/
theorem control_of_sequential {ls : List (Label V)}
    (h : Trans.Steps (step S) Sequential init ls c) (hclean : ¬ SharedFailed c.world.log) :
    Control c ∧ c.Single := by
  have hinv := h.invariant
    (I := fun c => c.Single ∧ (¬ SharedFailed c.world.log → Control c))
    ⟨idle_init.single, fun _ => control_init⟩ ?_
  · exact ⟨hinv.2 hclean, hinv.1⟩
  · intro m l m' hm hl hok
    refine ⟨hok.single hl hm.1, fun hclean' => ?_⟩
    have hcm := hm.2 fun hf => hclean' (hf.mono (grows_step hl))
    refine control_step hcm hl hclean' fun t ht => ?_
    -- a sequential run drops no future
    subst ht
    rcases hok with ⟨t', ht'⟩ | ⟨-, hop⟩
    · cases ht'
    · cases hop

end single

end Picante

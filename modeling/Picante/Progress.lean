/-
# Somebody can go on

An access waits only where it is parked: on its cell, or as a follower on the entry of its leader.
In a run in which no revalidation of a shared record fails and no future is dropped that others rely
on, and whose calls have no cycle, whoever waits awaits, through however many tasks, one that can
take a step (`waiting_ends`): no wakeup is lost, and there is no deadlock.

* `Awake` -- the access on top of a stack does not wait for a nested one.
* `stuck_cases` -- where a task cannot take a step.
* `Config.Awaits` -- whom a parked task is to be woken by.
-/
import Picante.Attended
import Picante.Waiting
import Mathlib.Data.Fintype.EquivFin

namespace Picante

open Config Relation

variable {V : Type}

/-! ## 1. Finitely many that wait -/

/-- Where finitely many are waited for, and nobody waits for itself, waiting comes to an end. -/
theorem wellFounded_of_acyclic {W : Nat → Nat → Prop} {n : Nat} (hlt : ∀ t u, W t u → u < n)
    (hacyclic : ∀ t, ¬ TransGen W t t) : WellFounded fun u t => W t u := by
  have hfin : WellFounded fun u t : Fin n => TransGen W t u := by
    have htrans : IsTrans (Fin n) fun u t => TransGen W t u := ⟨fun _ _ _ h h' => h'.trans h⟩
    have hirrefl : Std.Irrefl fun u t : Fin n => TransGen W t u := ⟨fun t => hacyclic t⟩
    exact Finite.wellFounded_of_trans_of_irrefl _
  have hacc : ∀ t : Fin n, Acc (fun u t => W t u) (t : Nat) := fun t =>
    hfin.induction (C := fun t => Acc (fun u t => W t u) (t : Nat)) t fun t ih =>
      Acc.intro _ fun u hu => ih ⟨u, hlt _ _ hu⟩ (.single hu)
  exact ⟨fun t => Acc.intro _ fun u hu => hacc ⟨u, hlt _ _ hu⟩⟩

/-! ## 2. Where a task cannot take a step -/

/-- Waits for a nested access. -/
def Pc.waits : Pc V → Bool
  | .touching .. | .reading .. => true
  | _ => false

theorem Pc.waits_of_waitsFor {pc : Pc V} {k : DynKey} (h : pc.waitsFor k) : pc.waits = true := by
  cases pc <;> first | rfl | cases h

theorem Pc.waits_eq_false {pc : Pc V} (htouching : ∀ src dep rest, pc ≠ .touching src dep rest)
    (hreading : ∀ prev d k deps, pc ≠ .reading prev d k deps) : pc.waits = false := by
  cases pc with
  | touching src dep rest => exact absurd rfl (htouching _ _ _)
  | reading prev d k deps => exact absurd rfl (hreading _ _ _ _)
  | _ => rfl

/-- The access on top of a stack waits for no nested one. -/
def Awake (c : Config V) : Prop :=
  ∀ t a below, (c.tasks t).stack = a :: below → a.pc.waits = false

theorem waits_afterRevalidation (view : ViewId) (rev : Revision) (src : Source V) (b : Bool) :
    (afterRevalidation view rev src b).waits = false := by
  cases src <;> cases b <;> rfl

theorem Touched.waits {w w' : World V} {view : ViewId} {a a' : Activation V} {src : Source V}
    {rest : List Dep} {r : PicanteResult Revision} (h : Touched w view a src rest r w' a') :
    a'.pc.waits = false := by
  cases h with
  | unchanged _ => rfl
  | changed _ => exact waits_afterRevalidation ..
  | failed => rfl

section steps

variable [DecidableEq V] {S : Schema V} {w w' : World V} {view : ViewId} {task : TaskId}
  {below : List (Activation V)} {a a' : Activation V} {c c' : Config V} {t : TaskId}

theorem ActStep.waits (h : ActStep S w view task below a w' (.goto a')) : a'.pc.waits = false := by
  cases h with
  | touchInput _ _ ht | touchInterned _ _ _ ht => exact ht.waits
  | accept _ | unregistered _ _ => exact waits_afterRevalidation ..
  | _ => rfl

theorem Awake.taskStep (h : Awake c) (hs : TaskStep S c t c') : Awake c' := by
  intro t' b rest hst'
  by_cases ht : t' = t
  · subst ht
    cases hs with
    | goto hst ha =>
      simp only [setTask, Function.update_self, List.cons.injEq] at hst'
      exact hst'.1 ▸ ha.waits
    | call hst ha =>
      simp only [setTask, Function.update_self, List.cons.injEq] at hst'
      exact hst'.1 ▸ rfl
    | ret hst ha => simp [setTask] at hst'
    | resume hst ha hp =>
      simp only [setTask, Function.update_self, List.cons.injEq] at hst'
      rw [← hst'.1]
      cases hp with
      | touched _ ht => exact ht.waits
      | answered _ => rfl
      | idle hpc => exact Pc.waits_eq_false hpc.1 hpc.2
  · exact h t' b rest (hs.tasks_ne ht ▸ hst')

/-- Whatever happens, no task is left waiting for a nested access that is not there. -/
theorem awake_step {l : Label V} (h : Awake c) (hs : step S c l = some c') : Awake c' := by
  cases l with
  | spawn view key want =>
    simp only [step] at hs
    split at hs
    · cases hs
      intro t b rest hst
      by_cases ht : t = c.taskCount
      · subst ht
        simp only [Function.update_self, List.cons.injEq] at hst
        exact hst.1 ▸ rfl
      · simp only [Function.update_of_ne ht] at hst
        exact h t b rest hst
    · cases hs
  | step t => exact h.taskStep (taskStep_of_step hs)
  | drop t =>
    simp only [step, dropTask] at hs
    split at hs
    · cases hs
    · split at hs
      · cases hs
        intro t' b rest hst
        by_cases ht : t' = t
        · subst ht
          simp [setTask] at hst
        · simp only [setTask, Function.update_of_ne ht] at hst
          exact h t' b rest hst
      · cases hs
  | _ =>
    obtain ⟨w, ms, rfl, -⟩ := framed_of_operation rfl hs
    exact h

/-- **Where an access on top of a stack cannot take a step**: it is parked, and has not been
notified. -/
theorem stuck_cases (hok : a.pc.EntryOk) (hawake : a.pc.waits = false)
    (h : stepActivation S w view task below a = none) :
    a.pc = .parked (w.cell view a.key).epoch ∨
      ∃ e, a.pc = .followParked e (w.registry.entries e).epoch := by
  unfold stepActivation at h
  cases hpc : a.pc with
  | parked seen =>
    simp only [hpc] at h
    split at h
    · next hseen => exact .inl (by rw [hseen])
    · cases h
  | followParked e seen =>
    simp only [hpc] at h
    split at h
    · next hseen => exact .inr ⟨e, by rw [hseen]⟩
    · cases h
  | touching src dep rest =>
    rw [hpc] at hawake
    cases hawake
  | reading prev d k deps =>
    rw [hpc] at hawake
    cases hawake
  | finishing ops =>
    cases ops with
    | nil =>
      rw [hpc] at hok
      exact hok.elim
    | cons op ops => simp [hpc] at h
  | revalidate src rest =>
    cases rest <;> simp only [hpc] at h <;> repeat' split at h
    all_goals cases h
  | computing prev prog deps =>
    cases prog <;> simp only [hpc] at h <;> repeat' split at h
    all_goals cases h
  | _ =>
    simp only [hpc] at h
    repeat' split at h
    all_goals cases h

end steps

/-! ## 3. Whom a parked task waits for -/

/-- The task is parked and has not been notified since, and an access of the other one will notify
it. -/
inductive Config.Awaits (c : Config V) (t u : TaskId) : Prop
  | cell {a : Activation V} {below : List (Activation V)} {d : Nat} {pc : Pc V}
      (hst : (c.tasks t).stack = a :: below)
      (hpc : a.pc = .parked (c.world.cell (c.tasks t).view a.key).epoch)
      (hactive : c.Active (c.tasks t).view a.key u d pc)
      (hwill : WillNotify (c.world.state (c.tasks t).view a.key) pc)
  | entry {a b : Activation V} {below : List (Activation V)} {e : EntryId}
      (hst : (c.tasks t).stack = a :: below)
      (hpc : a.pc = .followParked e (c.world.registry.entries e).epoch)
      (hb : b ∈ (c.tasks u).stack) (hattends : b.Attends e)

/-- Who will notify a cell without being at work for it waits for nobody. -/
theorem WillNotify.idle {st : ErasedState V} {pc : Pc V} (h : WillNotify st pc)
    (hworks : pc.works = false) :
    pc.waits = false ∧ (∀ n, pc ≠ .parked n) ∧ ∀ e n, pc ≠ .followParked e n := by
  have hminds : pc.minds = true ∨ pc.notifies = true := by
    cases st with
    | running started o => exact .inl (by simp [Pc.minds, show pc.owns = true from h])
    | vacant => exact .inl h
    | ready r => exact .inr h
    | poisoned e ver => exact .inr h
  have hretries : pc.retries = true ∨ pc.notifies = true := by
    refine hminds.imp_left fun hm => ?_
    simpa [Pc.minds, show (pc.owns || pc.follows) = false from hworks] using hm
  cases pc <;> simp_all [Pc.retries, Pc.notifies, Pc.waits]

section progress

variable {E : DynKey → DynKey → Prop} {S : Schema V} {c : Config V} {t u : TaskId}

/-- An access to a vacant or a settled cell that is not at work for it is on top of its stack, and
not parked. -/
theorem Control.on_top (h : Control c) {d : Nat} {b : Activation V} (hb : c.act u d = some b)
    (hpc : b.pc.waits = false) : ∃ below, (c.tasks u).stack = b :: below := by
  obtain ⟨above, below, hst, hlen⟩ := atDepth_eq_some hb
  rcases List.eq_nil_or_concat above with rfl | ⟨above', b', rfl⟩
  · exact ⟨below, hst⟩
  · have hnext : c.act u (d + 1) = some b' := by
      have hst' : (c.tasks u).stack = above' ++ b' :: b :: below := by simpa using hst
      simp [act, atDepth, hst', ← hlen]
    rw [Pc.waits_of_waitsFor (h.waits u d b b' hb hnext)] at hpc
    cases hpc

variable [DecidableEq V]

/-- A task whose access on top is not parked can take a step. -/
theorem can_step (h : Attended c) (hawake : Awake c) {a : Activation V}
    {below : List (Activation V)} (hst : (c.tasks t).stack = a :: below)
    (hparked : ∀ n, a.pc ≠ .parked n) (hfollows : ∀ e n, a.pc ≠ .followParked e n) :
    (stepTask S c t).isSome = true := by
  have hstep : stepActivation S c.world (c.tasks t).view t below a ≠ none := by
    intro hnone
    rcases stuck_cases (h.ok t a (by simp [hst])) (hawake t a below hst) hnone with hpc | ⟨e, hpc⟩
    · exact hparked _ hpc
    · exact hfollows _ _ hpc
  obtain ⟨m, hm⟩ := Option.ne_none_iff_exists'.mp hstep
  simp [stepTask, hst, hm]

/-- **Whoever cannot take a step waits for another task**, or awaits one that can. -/
theorem awaits_of_stuck (hcontrol : Control c) (h : Attended c) (hawake : Awake c)
    (hpending : c.Pending t) (hstuck : stepTask S c t = none) :
    ∃ u, c.Awaits t u ∧ (c.WaitsFor t u ∨ (stepTask S c u).isSome = true) := by
  obtain ⟨a, below, hst⟩ := List.exists_cons_of_ne_nil hpending
  have hnone : stepActivation S c.world (c.tasks t).view t below a = none := by
    unfold stepTask at hstuck
    simp only [hst] at hstuck
    split at hstuck
    · next hm => exact hm
    · cases hstuck
  rcases stuck_cases (h.ok t a (by simp [hst])) (hawake t a below hst) hnone with hpc | ⟨e, hpc⟩
  · obtain ⟨u, d, pc, hactive, hwill⟩ :=
      hcontrol.minded _ a.key t below.length ⟨a, act_top hst, rfl, rfl, hpc⟩
    refine ⟨u, .cell hst hpc hactive hwill, ?_⟩
    obtain ⟨b, hb, hview, hkey, rfl⟩ := hactive
    by_cases hworks : b.pc.works = true
    · exact .inl (.cell hst hpc hb hview hkey hworks)
    · -- it starts a computation when it finds the cell vacant, or has settled the cell
      have hidle := hwill.idle (Bool.not_eq_true _ ▸ hworks)
      obtain ⟨below', hst'⟩ := hcontrol.on_top hb hidle.1
      exact .inr (can_step h hawake hst' hidle.2.1 hidle.2.2)
  · obtain ⟨u, b, hb, hattends⟩ := h.parked t a (by simp [hst]) e hpc
    refine ⟨u, .entry hst hpc hb hattends, .inl ?_⟩
    obtain ⟨d, hd⟩ : ∃ d, c.act u d = some b :=
      List.mem_iff_getElem?.mp (List.mem_reverse.mpr hb)
    obtain ⟨⟨g, hg, he⟩, -⟩ := hattends
    exact .entry hst hpc hd hg he

/-- **Every chain of waiting tasks ends with one that can take a step**, if calls have no cycle. -/
theorem awaits_one_that_steps (hE : ∀ k, ¬ TransGen E k k) (hcontrol : Control c)
    (hattended : Attended c) (hled : Led c) (htraced : c.Traced S E) (hawake : Awake c)
    (hpending : c.Pending t) :
    ∃ u, ReflTransGen c.Awaits t u ∧ (step S c (.step u)).isSome = true := by
  have hacyclic := acyclic_of_descent (W := c.WaitsFor) hE (fun _ _ => htraced.weak)
    (fun _ _ _ _ => htraced.strict hled)
  have hlt : ∀ t u, c.WaitsFor t u → u < c.taskCount := by
    intro t u hwait
    by_contra hge
    have hnil := hcontrol.unused u (Nat.le_of_not_lt hge)
    cases hwait with
    | cell _ _ hb | entry _ _ hb =>
      rw [act_none_of_stack hnil] at hb
      cases hb
  induction t using (wellFounded_of_acyclic hlt hacyclic).induction with
  | _ t ih =>
    cases hstep : stepTask S c t with
    | some c' => exact ⟨t, .refl, by simp [step, hstep]⟩
    | none =>
      obtain ⟨u, hawaits, hwait | hsteps⟩ :=
        awaits_of_stuck hcontrol hattended hawake hpending hstep
      · have hpending' : c.Pending u := by
          cases hwait with
          | cell _ _ hb | entry _ _ hb => exact pending_of_act hb
        obtain ⟨v, hv, hsteps⟩ := ih u hwait hpending'
        exact ⟨v, hv.head hawaits, hsteps⟩
      · exact ⟨u, .single hawaits, hsteps⟩

/-- What the states of a considerate run have in common. -/
theorem awake_run {ls : List (Label V)} (hrun : Trans.Steps (step S) Considerate init ls c) :
    Control c ∧ Attended c ∧ Led c ∧ Awake c := by
  obtain ⟨hattended, hled⟩ := attended_run hrun
  have hcontrol : Control c := hrun.invariant control_init fun m l m' hm hl hok =>
    control_step hm hl hok.2 hok.1
  have hawake : Awake c := hrun.invariant (I := Awake) (fun _ _ _ hst => by cases hst)
    fun _ _ _ hm hl _ => awake_step hm hl
  exact ⟨hcontrol, hattended, hled, hawake⟩

/-- **Whoever waits awaits one that can go on.**  Take any run of accesses on any number of views,
interleaved with operations, in which no revalidation of a shared record fails and no future is
dropped that others rely on.  If the calls of its computations have no cycle, every task in progress
can take a step, or awaits one, through however many others, that can. -/
theorem waiting_ends {ls : List (Label V)} (hE : ∀ k, ¬ TransGen E k k)
    (hrun : Trans.Steps (step S)
      (fun m l m' => Considerate m l m' ∧ ∀ q d, m.Calls S l q d → E q d) init ls c)
    (hpending : c.Pending t) :
    ∃ u, ReflTransGen c.Awaits t u ∧ (step S c (.step u)).isSome = true := by
  obtain ⟨hcontrol, hattended, hled, hawake⟩ := awake_run (hrun.mono fun _ _ _ hok => hok.1)
  have htraced : c.Traced S E := hrun.invariant traced_init fun _ _ _ hm hl hok => hm.step hl hok.2
  exact awaits_one_that_steps hE hcontrol hattended hled htraced hawake hpending

end progress

open Deadlock in
/-- Task 1 is parked, and awaits one that can go on. -/
theorem parked_task_awaits :
    ∃ c, Trans.run (step schema) init parking = some c ∧ stepTask schema c 1 = none ∧
      ∃ u, ReflTransGen c.Awaits 1 u ∧ (step schema c (.step u)).isSome = true := by
  have hrun : (Trans.run (fun c l => if leftCalls c l then step schema c l else none) init
      parking).any (fun c => ¬ SharedFailed c.world.log ∧ (stepTask schema c 1).isNone ∧
        c.Pending 1) := by
    decide +kernel
  obtain ⟨c, hc, hend⟩ := (Option.any_eq_true ..).mp hrun
  obtain ⟨hclean, hstuck, hpending⟩ := of_decide_eq_true hend
  have hsteps : Trans.Steps (step schema) (fun m l m' => Considerate m l m' ∧
      ∀ q d, m.Calls schema l q d → q = left ∧ d = right) init parking c := by
    have hchecked := (Trans.Steps.of_checked_run _ hc).with_end
      (R := fun m m' => m.world.Grows m'.world) (fun m => .refl _)
      (fun _ _ _ => World.Grows.trans) fun _ _ _ => grows_step
    refine hchecked.mono fun m l m' hm => ⟨⟨fun t ht => ?_, fun hf => hclean (hf.mono hm.2)⟩,
      fun _ _ => calls_of_leftCalls hm.1.2⟩
    exact absurd (ht ▸ hm.1.1) (by simp [parking])
  have hacyclic : ∀ k, ¬ TransGen (fun q d => q = left ∧ d = right) k k := by
    refine acyclic_of_short ?_
    rintro a b d ⟨-, rfl⟩ ⟨hright, -⟩
    exact absurd hright (by decide)
  exact ⟨c, hsteps.run, Option.isNone_iff_eq_none.mp hstuck, waiting_ends hacyclic hsteps hpending⟩

end Picante

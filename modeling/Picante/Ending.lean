/-
# Every access returns

Two accesses that keep waking each other would take steps for ever and return nothing.  They do
not: whatever futures are dropped and whatever fails, once no operation comes between them the tasks
in progress stop after finitely many steps, whichever of them are chosen (`no_livelock`).  What they
hold in tokens is a potential that every step spends from (`spends_of_step`).

A task may stop because it waits for one that was dropped, or for a cell that a failed revalidation
has left running.  In a run without these, where the tasks stop they have all returned
(`accesses_return`).
-/
import Picante.Budget
import Picante.Progress
import Picante.Trans.Inevitable

namespace Picante

open Config Relation

variable {V : Type}

/-! ## 1. Tasks -/

/-- What a stack of accesses holds. -/
noncomputable def held (w : World V) (view : ViewId) (stack : List (Activation V)) :
    Multiset (Token V) :=
  (stack.map (·.tokens w view)).sum

/-- What the tasks in progress hold together. -/
noncomputable def Config.tokens (c : Config V) : Multiset (Token V) :=
  ∑ t ∈ Finset.range c.taskCount, held c.world (c.tasks t).view (c.tasks t).stack

section tasks

variable {S : Schema V} {E : DynKey → DynKey → Prop} {c c' : Config V} {t : TaskId}

theorem held_append (w : World V) (view : ViewId) (as bs : List (Activation V)) :
    held w view (as ++ bs) = held w view as + held w view bs := by
  simp [held]

/-- What a stack holds after a step of another task. -/
theorem held_le {P : DynKey → Prop} {w w' : World V} {view : ViewId} {stack : List (Activation V)}
    (hs : w.Stirred P w') (hstack : ∀ a ∈ stack, a.Traced S E w.registry) :
    held w' view stack ≤ held w view stack + (stack.map (bonus P)).sum := by
  unfold held
  rw [← List.sum_map_add]
  exact List.sum_le_sum fun a ha => Activation.tokens_le hs (hstack a ha)

theorem bonus_below {P : DynKey → Prop} {x : Token V} {stack : List (Activation V)}
    (hP : ∀ k, P k → (Token.pass k).Below E x) {y : Token V}
    (hy : y ∈ (stack.map (bonus P)).sum) : y.Below E x := by
  induction stack with
  | nil => exact absurd hy (Multiset.notMem_zero _)
  | cons a stack ih =>
    rw [List.map_cons, List.sum_cons, Multiset.mem_add] at hy
    refine hy.elim (fun hy => ?_) ih
    unfold bonus at hy
    split at hy
    · next hkey => exact Multiset.mem_singleton.mp hy ▸ hP _ hkey
    · exact absurd hy (Multiset.notMem_zero _)

/-- **A step of a task spends a token**, if it costs what its accesses hold. -/
theorem Config.Traced.spends (h : c.Traced S E) (hlt : t < c.taskCount) {w : World V}
    (old new rest : List (Activation V)) {task : Task V} (hold : (c.tasks t).stack = old ++ rest)
    (hnew : task.stack = new ++ rest) (hview : task.view = (c.tasks t).view)
    (hcosts : Costs E c.world w (held c.world (c.tasks t).view old)
      (held w (c.tasks t).view new)) :
    Trans.Spends (Token.Below E) (({ c with world := w } : Config V).setTask t task).tokens
      c.tokens := by
  obtain ⟨x, P, ⟨g, hg, hle⟩, hw, hP⟩ := hcosts
  have hrest : ∀ a ∈ rest, a.Traced S E c.world.registry := fun a ha =>
    h.acts t a (hold ▸ List.mem_append_right _ ha)
  refine Trans.Spends.of_sum (i := t) (x := x) (g := fun u =>
      if u = t then g + (rest.map (bonus P)).sum else ((c.tasks u).stack.map (bonus P)).sum)
    (Finset.mem_range.mpr hlt) ?_ (fun u _ hu => ?_) fun u _ y hy => ?_
  · simp only [setTask, Function.update_self, if_true, hold, hnew, hview, held_append]
    calc _ = held w (c.tasks t).view new + {x} + held w (c.tasks t).view rest :=
          add_right_comm ..
      _ ≤ (held c.world (c.tasks t).view old + g) +
          (held c.world (c.tasks t).view rest + (rest.map (bonus P)).sum) :=
        add_le_add hle (held_le hw hrest)
      _ = _ := add_add_add_comm ..
  · simp only [setTask, Function.update_of_ne hu, if_neg hu]
    exact held_le hw (h.acts u)
  · split at hy
    · exact (Multiset.mem_add.mp hy).elim (hg y) (bonus_below hP)
    · exact bonus_below hP hy

variable [DecidableEq V]

/-- **Every step of a task spends a token.** -/
theorem spends_of_step (hE : ∀ q d, S.MayCall q d → E q d) (h : c.Traced S E) (hr : c.Regular S)
    (hunused : ∀ t, c.taskCount ≤ t → (c.tasks t).stack = [])
    (hs : stepTask S c t = some c') : Trans.Spends (Token.Below E) c'.tokens c.tokens := by
  unfold stepTask at hs
  cases hst : (c.tasks t).stack with
  | nil => simp [hst] at hs
  | cons a below =>
    have hlt : t < c.taskCount := by
      by_contra hge
      rw [hunused t (Nat.le_of_not_lt hge)] at hst
      cases hst
    have ha := h.acts t a (by simp [hst])
    have hra := hr.acts t a (by simp [hst])
    simp only [hst] at hs
    cases hm : stepActivation S c.world (c.tasks t).view t below a with
    | none => simp [hm] at hs
    | some m =>
      obtain ⟨w, mv⟩ := m
      have hact : ActStep S c.world (c.tasks t).view t below a w mv := actStep_of_step hm
      simp only [hm, Option.some.injEq] at hs
      subst hs
      cases mv with
      | goto a' =>
        refine h.spends hlt [a] [a'] below hst rfl rfl ?_
        simpa [held] using costs_goto hm ha hra hr.filing
      | call a' child =>
        obtain ⟨rfl, hcosts⟩ := costs_call hact (hact.called hE ha hra)
        refine h.spends hlt [a] [.enter child, a'] below hst rfl rfl ?_
        simpa [held] using hcosts
      | ret r =>
        obtain rfl := hact.ret_world
        cases below with
        | nil =>
          refine h.spends hlt [a] [] [] hst rfl rfl ?_
          simpa [held] using costs_return a
        | cons p below =>
          have hp := resumed_cases c.world (c.tasks t).view p r
          show Trans.Spends (Token.Below E) (({ c with
            world := (resume c.world (c.tasks t).view p r).1 } : Config V).setTask t
            { c.tasks t with
              stack := (resume c.world (c.tasks t).view p r).2 :: below }).tokens c.tokens
          generalize resume c.world (c.tasks t).view p r = x at hp ⊢
          obtain ⟨w', p'⟩ := x
          refine h.spends hlt [a, p] [p'] below hst rfl rfl ?_
          simpa [held] using hp.costs

/-! ## 2. In the end -/

/-- The task is in progress, or has its result. -/
def Config.Served (c : Config V) (t : TaskId) : Prop := c.Pending t ∨ (c.tasks t).result.isSome

omit [DecidableEq V] in
theorem acyclic_of_wellFounded (hE : WellFounded fun d q => E q d) (k : DynKey) :
    ¬ TransGen E k k := fun hk =>
  hE.transGen.asymmetric _ _ (transGen_swap.mpr hk) (transGen_swap.mpr hk)

/-- No step of a task loses another one, or its result. -/
theorem Config.Served.taskStep {u : TaskId} (h : c.Served u) (hs : TaskStep S c t c') :
    c'.Served u := by
  by_cases hu : u = t
  · subst hu
    cases hs with
    | goto hst _ | call hst _ | resume hst _ _ => exact .inl (by simp [Pending, setTask])
    | ret hst _ => exact .inr (by simp [setTask])
  · exact h.imp (hs.pending_ne hu).mpr fun h => by rwa [hs.tasks_ne hu]

/-- **Steps of tasks come to an end**, in whatever order they are taken. -/
theorem stops_of_run {ok : Config V → Label V → Config V → Prop} {ls : List (Label V)}
    (hcalls : WellFounded fun d q => S.MayCall q d)
    (hrun : Trans.Steps (step S) ok init ls c) :
    Trans.Stops (step S) (fun l => ∃ t, l = .step t) c := by
  refine Trans.Stops.of_spends
    (I := fun m : Config V => m.Regular S ∧ m.Traced S S.MayCall ∧ Led m) Config.tokens
    (Token.wellFounded_below hcalls) ?_ ⟨regular_run hrun, traced_of_mayCall hrun, ?_⟩
  · rintro m l m' ⟨hr, ht, hled⟩ ⟨t, rfl⟩ hs
    exact ⟨⟨hr.step hs, ht.step hs fun _ _ => hr.mayCall, led_step hled hs⟩,
      spends_of_step (fun _ _ h => h) ht hr hled.unused hs⟩
  · exact led_run led_init hrun

/-- **No livelock.**  Take any run of accesses on any number of views, interleaved with operations,
whatever futures are dropped in it and whatever fails.  If no chain of calls that computations may
make goes on for ever, then whichever of the tasks in progress take steps from then on, and in
whatever order, they do not go on for ever. -/
theorem no_livelock {ls : List (Label V)} (hcalls : WellFounded fun d q => S.MayCall q d)
    (h : Trans.run (step S) init ls = some c) (schedule : Nat → TaskId) :
    ∃ n, Trans.run (step S) c ((List.range n).map fun i => .step (schedule i)) = none :=
  (stops_of_run hcalls (Trans.Steps.of_run h)).schedule _ fun n => ⟨schedule n, rfl⟩

end tasks

namespace Cancellation

theorem not_follows_done {out : PicanteResult Nat} {obs : ReadProg.Obs DynKey PicanteError
    (Option Nat)} {d : DynKey} {k : PicanteResult (Option Nat) → Query Nat} :
    ¬ ReadProg.Follows (.done out) obs (.read d k) := by
  cases obs with
  | nil => exact fun h => by cases ReadProg.follows_nil.mp h
  | cons da obs => exact ReadProg.follows_done_cons

theorem follows_valid {next : Nat → Query Nat} {a : PicanteResult (Option Nat)}
    {obs : ReadProg.Obs DynKey PicanteError (Option Nat)} {d : DynKey}
    {k : PicanteResult (Option Nat) → Query Nat}
    (h : ReadProg.Follows (valid next a) obs (.read d k)) :
    ∃ v, ReadProg.Follows (next v) obs (.read d k) := by
  unfold valid at h
  split at h
  · exact absurd h not_follows_done
  · exact ⟨_, h⟩
  · exact absurd h not_follows_done
  · exact absurd h not_follows_done

/-- `nested` calls nothing, and nothing else is called. -/
theorem mayCall_cases {q d : DynKey} (h : schema.MayCall q d) : q ≠ nested ∧ d = nested := by
  obtain ⟨hd, k, n, obs, hf⟩ := h
  have hf' : ReadProg.Follows (body q) obs (.read d k) := hf
  unfold body at hf'
  split at hf'
  · cases obs with
    | nil =>
      cases ReadProg.follows_nil.mp hf'
      cases hd
    | cons da obs =>
      obtain ⟨v, hv⟩ := follows_valid hf'.2
      exact absurd hv not_follows_done
  · next hq =>
    refine ⟨hq, ?_⟩
    cases obs with
    | nil =>
      cases ReadProg.follows_nil.mp hf'
      rfl
    | cons da obs =>
      obtain ⟨v, hv⟩ := follows_valid hf'.2
      cases obs with
      | nil =>
        cases ReadProg.follows_nil.mp hv
        cases hd
      | cons da obs =>
        obtain ⟨v', hv'⟩ := follows_valid hv.2
        exact absurd hv' not_follows_done

theorem wellFounded_mayCall : WellFounded fun d q => schema.MayCall q d := by
  have hnested : Acc (fun d q => schema.MayCall q d) nested :=
    Acc.intro _ fun d hd => absurd rfl (mayCall_cases hd).1
  exact ⟨fun q => Acc.intro q fun d hd => (mayCall_cases hd).2 ▸ hnested⟩

end Cancellation

open Cancellation in
/-- Task 1 waits for ever for a leader that was dropped, and task 2, which starts now and will read
the same key, has ten steps left until it waits too: the steps of all tasks still end. -/
theorem abandoned_tasks_stop :
    ∃ c, Trans.run (step schema) init (leader ++ [.drop 0, .spawn 0 nested true] ++
        List.replicate 3 (.step 1) ++ [.spawn 0 whole true]) = some c ∧
      c.Pending 1 ∧ (Trans.run (step schema) c (List.replicate 10 (.step 2))).isSome ∧
      ∀ schedule : Nat → TaskId, ∃ n,
        Trans.run (step schema) c ((List.range n).map fun i => .step (schedule i)) = none := by
  have hrun : (Trans.run (step schema) init (leader ++ [.drop 0, .spawn 0 nested true] ++
      List.replicate 3 (.step 1) ++ [.spawn 0 whole true])).any (fun c => c.Pending 1 ∧
        (Trans.run (step schema) c (List.replicate 10 (.step 2))).isSome) := by
    decide +kernel
  obtain ⟨c, hc, hend⟩ := (Option.any_eq_true ..).mp hrun
  obtain ⟨hpending, hleft⟩ := of_decide_eq_true hend
  exact ⟨c, hc, hpending, hleft, no_livelock wellFounded_mayCall hc⟩

section tasks

variable {S : Schema V} {c : Config V} [DecidableEq V]

/-- **Every access returns.**  Take any run of accesses on any number of views, interleaved with
operations, in which no revalidation of a shared record fails and no future is dropped that others
rely on.  If no chain of calls that computations may make goes on for ever, then whichever of the
tasks in progress take steps from then on, and in whatever order, each comes to its result, unless
in one of these steps a revalidation of a shared record fails. -/
theorem accesses_return {ls : List (Label V)} (hcalls : WellFounded fun d q => S.MayCall q d)
    (hrun : Trans.Steps (step S) Considerate init ls c) :
    Trans.Inevitable (step S) (fun l => ∃ t, l = .step t)
      (fun m => SharedFailed m.world.log ∨ ∀ t, c.Pending t → (m.tasks t).result.isSome) c := by
  refine Trans.Inevitable.of_stops (I := fun m => (∃ ls, Trans.Steps (step S) Considerate init ls m)
    ∧ ∀ t, c.Pending t → m.Served t) (stops_of_run hcalls hrun) ?_ ?_
    ⟨⟨ls, hrun⟩, fun t ht => .inl ht⟩
  · rintro m l m' ⟨⟨ls', hm⟩, hserved⟩ ⟨t, rfl⟩ hs
    by_cases hfailed : SharedFailed m'.world.log
    · exact .inl (.inl hfailed)
    · refine .inr ⟨⟨_, hm.snoc hs ⟨fun t ht => ?_, hfailed⟩⟩, fun u hu => ?_⟩
      · cases ht
      · exact (hserved u hu).taskStep (taskStep_of_step hs)
  · rintro m ⟨⟨ls', hm⟩, hserved⟩
    by_cases hall : ∀ t, c.Pending t → (m.tasks t).result.isSome
    · exact .inl (.inr hall)
    · obtain ⟨t, ht, hnone⟩ : ∃ t, c.Pending t ∧ ¬ (m.tasks t).result.isSome := by
        simpa using hall
      obtain ⟨hcontrol, hattended, hled, hawake⟩ := awake_run hm
      obtain ⟨u, -, hu⟩ := awaits_one_that_steps (acyclic_of_wellFounded hcalls) hcontrol hattended
        hled (traced_of_mayCall hm) hawake ((hserved t ht).resolve_right hnone)
      exact .inr ⟨_, ⟨u, rfl⟩, hu⟩

end tasks

open Cancellation in
/-- The access on the snapshot that is parked on the entry of its leader returns. -/
theorem parked_follower_returns :
    ∃ c, Trans.run (step schema) init follower = some c ∧ c.Pending 0 ∧ c.Pending 1 ∧
      Trans.Inevitable (step schema) (fun l => ∃ t, l = .step t)
        (fun m => SharedFailed m.world.log ∨ ∀ t, c.Pending t → (m.tasks t).result.isSome) c := by
  have hrun : (Trans.run (step schema) init follower).any (fun c =>
      ¬ SharedFailed c.world.log ∧ c.Pending 0 ∧ c.Pending 1) := by
    decide +kernel
  obtain ⟨c, hc, hend⟩ := (Option.any_eq_true ..).mp hrun
  obtain ⟨hclean, hzero, hone⟩ := of_decide_eq_true hend
  have hdrop : ∀ t, .drop t ∉ follower := fun t ht => by simp [follower, leader] at ht
  exact ⟨c, hc, hzero, hone,
    accesses_return wellFounded_mayCall (considerate_of_run hc hdrop hclean)⟩

end Picante

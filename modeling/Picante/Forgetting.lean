/-
# Entries that nobody holds

An entry of the registry is read and written through a guard, by a follower, or after it was
looked up where it is filed.  One that is nowhere to be found in these places is dead, and a run
goes the same way when it is forgotten (`runOp_forget`).

In the source a dead entry is freed with its last reference; here the registry keeps it.
-/
import Picante.Leading

namespace Picante

variable {V : Type}

open Config

/-! ## 1. Forgetting -/

/-- The entry a follower follows. -/
def Pc.entry : Pc V → Option EntryId
  | .followReset e | .followListen e | .followRead e _ | .followParked e _ => some e
  | _ => none

/-- The activation deals with no entry below `n`. -/
structure Activation.Holds (n : EntryId) (a : Activation V) : Prop where
  guard : ∀ g, a.guard = some g → n ≤ g.entry
  entry : ∀ e, a.pc.entry = some e → n ≤ e

/-- No entry below `n` is filed, or dealt with by an activation. -/
structure Config.Holds (n : EntryId) (c : Config V) : Prop where
  next : n ≤ c.world.registry.nextEntry
  filed : ∀ key e, c.world.registry.filed key = some e → n ≤ e
  acts : ∀ t, ∀ a ∈ (c.tasks t).stack, a.Holds n

/-- Forgets what the entries below `n` were. -/
def Registry.forget (n : EntryId) (r : Registry V) : Registry V :=
  { r with entries := fun e => if e < n then empty.entries e else r.entries e }

def World.forget (n : EntryId) (w : World V) : World V :=
  { w with registry := w.registry.forget n }

def Config.forget (n : EntryId) (c : Config V) : Config V := { c with world := c.world.forget n }

section forget

variable {n : EntryId} {w w' : World V} {view : ViewId} {a a' : Activation V}

theorem Registry.entries_forget {r : Registry V} {e : EntryId} (h : n ≤ e) :
    (r.forget n).entries e = r.entries e := if_neg (Nat.not_lt_of_le h)

theorem Registry.forget_update {r : Registry V} {e : EntryId} (h : n ≤ e) (x : InFlightEntry V) :
    Function.update (r.forget n).entries e x = fun e' =>
      if e' < n then empty.entries e' else Function.update r.entries e x e' := by
  funext e'
  simp only [Function.update_apply, forget]
  split
  · next heq =>
    subst heq
    rw [if_neg (Nat.not_lt_of_le h)]
  · rfl

theorem Registry.setState_forget {r : Registry V} {e : EntryId} (h : n ≤ e)
    (st : InFlightState V) : (r.forget n).setState e st = (r.setState e st).forget n := by
  simp only [setState, entries_forget h, forget_update h]
  rfl

theorem Registry.notify_forget {r : Registry V} {e : EntryId} (h : n ≤ e) :
    (r.forget n).notify e = (r.notify e).forget n := by
  simp only [notify, entries_forget h, forget_update h]
  rfl

theorem Registry.lead_forget {r : Registry V} (h : n ≤ r.nextEntry) (key : InFlightKey)
    (leader : ViewId) : (r.forget n).lead key leader = (r.lead key leader).forget n := by
  have hnext : (r.forget n).nextEntry = r.nextEntry := rfl
  simp only [lead, hnext, forget_update h]
  rfl

theorem touched_forget (src : Source V) (rest : List Dep) (r : PicanteResult Revision) :
    touched (w.forget n) view a src rest r =
      ((touched w view a src rest r).1.forget n, (touched w view a src rest r).2) := by
  cases r with
  | error e => rfl
  | ok ch =>
    by_cases h : ch > src.changedAt
    · simp only [touched, if_pos h]
      rfl
    · simp only [touched, if_neg h]

theorem resume_forget (p : Activation V) (r : AccessResult V) :
    resume (w.forget n) view p r = ((resume w view p r).1.forget n, (resume w view p r).2) := by
  unfold resume
  split
  · exact touched_forget ..
  · rfl
  · rfl

variable [DecidableEq V] {S : Schema V} {task : TaskId} {below : List (Activation V)}

omit [DecidableEq V] in
theorem stepMicroOp_forget (ha : a.Holds n) (ops : List (MicroOp V)) (op : MicroOp V) :
    stepMicroOp (w.forget n) view a ops op =
      ((stepMicroOp w view a ops op).1.forget n, (stepMicroOp w view a ops op).2) := by
  cases op with
  | setEntry st =>
    unfold stepMicroOp
    cases hg : a.guard with
    | none => rfl
    | some g =>
      simp only [World.modifyRegistry, World.forget, Registry.setState_forget (ha.guard g hg)]
  | notifyEntry =>
    unfold stepMicroOp
    cases hg : a.guard with
    | none => rfl
    | some g =>
      simp only [World.modifyRegistry, World.forget, Registry.notify_forget (ha.guard g hg)]
  | unregister =>
    unfold stepMicroOp
    cases a.guard <;> rfl
  | checked r =>
    unfold stepMicroOp
    show (if w.rev view = a.rev then _ else _) = _
    split <;> rfl
  | updateDeps _ | setCell _ | notifyCell | putShared _ | raise _ => rfl

/-- **A step goes the same way** when the entries it does not deal with are forgotten. -/
theorem stepActivation_forget (hnext : n ≤ w.registry.nextEntry) (ha : a.Holds n) :
    stepActivation S (w.forget n) view task below a =
      (stepActivation S w view task below a).map fun m => (m.1.forget n, m.2) := by
  have hstate : ∀ i k, (w.forget n).state i k = w.state i k := fun _ _ => rfl
  have hat : ∀ d, (w.forget n).internedAt S d = w.internedAt S d := fun _ => rfl
  unfold stepActivation
  cases hpc : a.pc with
  | top | listen | touching src dep rest | reading prev d k deps | followReset e => rfl
  | observe seen =>
    simp only [hstate]
    cases w.state view a.key with
    | ready r => simp only; split <;> rfl
    | poisoned e ver => simp only; split <;> rfl
    | running started o => rfl
    | vacant => rfl
  | parked seen =>
    show (if (w.cell view a.key).epoch = seen then _ else _) = _
    simp only
    split <;> rfl
  | revalidate src rest =>
    cases rest with
    | nil => rfl
    | cons dep rest =>
      simp only [hat]
      split
      · cases S.sectionType dep.kind with
        | input =>
          simp only [touched_forget]
          rfl
        | interned =>
          simp only
          cases w.internedAt S dep with
          | none => rfl
          | some v =>
            simp only [touched_forget]
            rfl
        | derived =>
          simp only
          cases findCycle dep (a :: below) <;> rfl
      · rfl
  | reverify =>
    simp only [hstate]
    cases w.state view a.key <;> rfl
  | attempt =>
    simp only [hstate]
    cases w.state view a.key with
    | ready r => simp only; split <;> rfl
    | poisoned e ver => simp only; split <;> rfl
    | running started o => rfl
    | vacant => rfl
  | sharedGet prev =>
    have hshared : (w.forget n).shared = w.shared := rfl
    have hscope : (w.forget n).scope view = w.scope view := rfl
    have hlookups : (w.forget n).lookups = w.lookups := rfl
    simp only [hlookups, hscope]
    cases S.evicted w.lookups with
    | true =>
      simp only [if_true, World.evictShared, hshared, Function.update_self]
      rfl
    | false =>
      simp only [Bool.false_eq_true, if_false, hshared]
      cases w.shared (w.scope view) a.key with
      | none => rfl
      | some record => simp only; split <;> rfl
  | lead prev =>
    have hfiled : (w.forget n).registry.filed = w.registry.filed := rfl
    have hscope : (w.forget n).scope view = w.scope view := rfl
    simp only [hfiled, hscope]
    cases w.registry.filed ⟨w.scope view, a.rev, a.key⟩ with
    | some e => rfl
    | none =>
      simp only [Option.map_some, World.modifyRegistry, World.forget,
        Registry.lead_forget hnext]
      rfl
  | followListen e =>
    simp only [World.forget, Registry.entries_forget (ha.entry e (by rw [hpc]; rfl))]
    rfl
  | followRead e seen =>
    have he := ha.entry e (by rw [hpc]; rfl)
    simp only [World.forget, Registry.entries_forget he]
    cases (w.registry.entries e).state <;> rfl
  | followParked e seen =>
    simp only [World.forget, Registry.entries_forget (ha.entry e (by rw [hpc]; rfl))]
    split <;> rfl
  | computing prev prog deps =>
    cases prog with
    | done out => rfl
    | read d k =>
      simp only [hat]
      cases S.sectionType d.kind with
      | input => rfl
      | interned =>
        simp only
        cases w.internedAt S d <;> rfl
      | derived =>
        simp only
        cases findCycle d (a :: below) <;> rfl
  | finishing ops =>
    cases ops with
    | nil => rfl
    | cons op ops =>
      simp only [stepMicroOp_forget ha]
      rfl

omit [DecidableEq V] in
theorem entry_afterRevalidation (rev : Revision) (src : Source V) (b : Bool) :
    (afterRevalidation view rev src b).entry = none := by
  cases src <;> cases b <;> rfl

omit [DecidableEq V] in
theorem Activation.Holds.moved (h : a.Holds n) (hg : a'.guard = a.guard)
    (hpc : a'.pc.entry = none) : a'.Holds n := by
  refine ⟨fun g hg' => h.guard g (hg ▸ hg'), fun e he => ?_⟩
  rw [hpc] at he
  cases he

omit [DecidableEq V] in
theorem Touched.holds {src : Source V} {rest : List Dep} {r : PicanteResult Revision}
    (h : Touched w view a src rest r w' a') (ha : a.Holds n) : a'.Holds n := by
  cases h with
  | unchanged _ | failed => exact ha.moved rfl rfl
  | changed _ => exact ha.moved rfl (entry_afterRevalidation ..)

/-- The entries an access comes to deal with are filed, or new. -/
theorem ActStep.holds (h : ActStep S w view task below a w' (.goto a'))
    (hnext : n ≤ w.registry.nextEntry)
    (hfiled : ∀ key e, w.registry.filed key = some e → n ≤ e) (ha : a.Holds n) :
    n ≤ w'.registry.nextEntry ∧ (∀ key e, w'.registry.filed key = some e → n ≤ e) ∧
      a'.Holds n := by
  cases h with
  | lead _ _ =>
    refine ⟨Nat.le_succ_of_le hnext, fun key e hf => ?_, fun g hg => ?_, nofun⟩
    · have hf' : Function.update w.registry.filed ⟨w.scope view, a.rev, a.key⟩
          (some w.registry.nextEntry) key = some e := hf
      rw [Function.update_apply] at hf'
      split at hf'
      · cases hf'
        exact hnext
      · exact hfiled key e hf'
    · cases hg
      exact hnext
  | unregister _ hg =>
    refine ⟨hnext, fun key e hf => ?_, nofun, nofun⟩
    have hf' : Function.update w.registry.filed _ none key = some e := hf
    rw [Function.update_apply] at hf'
    split at hf'
    · cases hf'
    · exact hfiled key e hf'
  | follow _ hf =>
    refine ⟨hnext, hfiled, ha.guard, fun e he => ?_⟩
    cases he
    exact hfiled _ _ hf
  | followReset hpc | followListen hpc | followPark hpc | followWake hpc =>
    refine ⟨hnext, hfiled, ha.guard, fun e he => ha.entry e ?_⟩
    rw [hpc]
    exact he
  | touchInput _ _ ht | touchInterned _ _ _ ht =>
    rw [ht.same.registry]
    exact ⟨hnext, hfiled, ht.holds ha⟩
  | accept _ | unregistered _ _ =>
    exact ⟨hnext, hfiled, ha.moved rfl (entry_afterRevalidation ..)⟩
  | sharedMiss _ hw _ =>
    rcases hw with rfl | rfl <;> exact ⟨hnext, hfiled, ha.moved rfl rfl⟩
  | _ => exact ⟨hnext, hfiled, ha.moved rfl rfl⟩

theorem ActStep.call_holds {child : DynKey}
    (h : ActStep S w view task below a w' (.call a' child)) (ha : a.Holds n) : a'.Holds n := by
  cases h with
  | touchCall _ _ _ | readCall _ _ _ => exact ha.moved rfl rfl

omit [DecidableEq V] in
theorem Resumed.holds {p p' : Activation V} {r : AccessResult V} (h : Resumed w view p r w' p')
    (hp : p.Holds n) : p'.Holds n := by
  cases h with
  | touched _ ht => exact ht.holds hp
  | answered _ => exact hp.moved rfl rfl
  | idle _ => exact hp

namespace Config

variable {c c' : Config V} {t : TaskId}

omit [DecidableEq V] in
/-- Where no task is running and nothing is filed, all the entries made so far are dead. -/
theorem Idle.holds (h : c.Idle) (hfiled : ∀ key, c.world.registry.filed key = none) :
    c.Holds c.world.registry.nextEntry := by
  refine ⟨Nat.le_refl _, fun key e hf => ?_, fun t a ha => ?_⟩
  · rw [hfiled key] at hf
    cases hf
  · rw [not_not.mp (h t)] at ha
    cases ha

omit [DecidableEq V] in
/-- One task gets another stack. -/
theorem Holds.restacked (h : c.Holds n) {task : Task V} (hnext : n ≤ w.registry.nextEntry)
    (hfiled : ∀ key e, w.registry.filed key = some e → n ≤ e)
    (hstack : ∀ a ∈ task.stack, a.Holds n) :
    ({ c with world := w }.setTask t task).Holds n := by
  refine ⟨hnext, hfiled, fun t' b hb => ?_⟩
  rcases eq_or_ne t' t with rfl | hne
  · simp only [setTask, Function.update_self] at hb
    exact hstack b hb
  · simp only [setTask, Function.update_of_ne hne] at hb
    exact h.acts t' b hb

theorem Holds.taskStep (h : c.Holds n) (hs : TaskStep S c t c') : c'.Holds n := by
  have hacts := h.acts t
  cases hs with
  | goto hst ha =>
    rw [hst] at hacts
    obtain ⟨hnext, hfiled, ha'⟩ := ha.holds h.next h.filed (hacts _ (List.mem_cons_self ..))
    exact h.restacked hnext hfiled
      (List.forall_mem_cons.mpr ⟨ha', (List.forall_mem_cons.mp hacts).2⟩)
  | call hst ha =>
    rw [hst] at hacts
    obtain ⟨hw, -⟩ := ha.call_pcOk .vacant
    have ha' := ha.call_holds (hacts _ (List.mem_cons_self ..))
    rw [hw]
    refine h.restacked h.next h.filed (List.forall_mem_cons.mpr ⟨⟨nofun, nofun⟩, ?_⟩)
    exact List.forall_mem_cons.mpr ⟨ha', (List.forall_mem_cons.mp hacts).2⟩
  | ret hst ha =>
    obtain rfl := ha.ret_world
    exact h.restacked h.next h.filed fun b hb => absurd hb List.not_mem_nil
  | resume hst ha hp =>
    rw [hst] at hacts
    obtain rfl := ha.ret_world
    obtain ⟨hp', hbelow⟩ := List.forall_mem_cons.mp (List.forall_mem_cons.mp hacts).2
    have hreg := hp.same.registry
    exact h.restacked (hreg ▸ h.next) (hreg ▸ h.filed)
      (List.forall_mem_cons.mpr ⟨hp.holds hp', hbelow⟩)

omit [DecidableEq V] in
theorem move_forget (below : List (Activation V)) (m : World V × Move V) :
    (c.forget n).move t below (m.1.forget n, m.2) = (c.move t below m).forget n := by
  obtain ⟨w, mv⟩ := m
  cases mv with
  | goto a | call a child => rfl
  | ret r =>
    cases below with
    | nil => rfl
    | cons p below =>
      have hres : resume (w.forget n) (c.tasks t).view p r =
          ((resume w (c.tasks t).view p r).1.forget n, (resume w (c.tasks t).view p r).2) :=
        resume_forget p r
      show ({ c with world := (resume (w.forget n) (c.tasks t).view p r).1 }.setTask t
        { c.tasks t with stack := (resume (w.forget n) (c.tasks t).view p r).2 :: below }) = _
      rw [hres]
      rfl

theorem stepTask_forget (h : c.Holds n) :
    stepTask S (c.forget n) t = (stepTask S c t).map (·.forget n) := by
  have htasks : (c.forget n).tasks = c.tasks := rfl
  have hworld : (c.forget n).world = c.world.forget n := rfl
  unfold stepTask
  rw [htasks, hworld]
  cases hst : (c.tasks t).stack with
  | nil => rfl
  | cons a below =>
    have ha : a.Holds n := h.acts t a (by rw [hst]; exact List.mem_cons_self ..)
    simp only [stepActivation_forget h.next ha]
    cases stepActivation S c.world (c.tasks t).view t below a with
    | none => rfl
    | some m => exact congrArg some (move_forget below m)

theorem finish_forget {fuel : Nat} (h : c.Holds n) :
    finish S t fuel (c.forget n) = (finish S t fuel c).map (·.forget n) ∧
      ∀ c', finish S t fuel c = some c' → c'.Holds n := by
  induction fuel generalizing c with
  | zero => exact ⟨rfl, fun _ h => by cases h⟩
  | succ fuel ih =>
    have htasks : (c.forget n).tasks = c.tasks := rfl
    unfold finish
    rw [htasks, stepTask_forget h]
    cases (c.tasks t).stack with
    | nil => exact ⟨rfl, fun c' hc' => Option.some.inj hc' ▸ h⟩
    | cons a below =>
      cases hs : stepTask S c t with
      | none => exact ⟨rfl, fun _ h => by cases h⟩
      | some m => exact ih (h.taskStep (taskStep_of_step hs))

/-- **An operation goes the same way** when the entries nobody deals with are forgotten. -/
theorem runOp_forget {fuel : Nat} {op : Op V} (h : c.Holds n) :
    runOp S fuel (c.forget n) op = (runOp S fuel c op).map (·.forget n) ∧
      ∀ c', runOp S fuel c op = some c' → c'.Holds n := by
  have framed : ∀ w : World V, w.registry = c.world.registry →
      ({ c with world := w } : Config V).Holds n := fun w hw =>
    ⟨hw ▸ h.next, hw ▸ h.filed, h.acts⟩
  cases op with
  | mutate view key value =>
    have hm : mutateWorld (c.world.forget n) view key value =
        (mutateWorld c.world view key value).forget n := by
      unfold mutateWorld
      have hin : (c.world.forget n).inputs = c.world.inputs := rfl
      rw [hin]
      split <;> rfl
    by_cases hv : view < c.world.viewCount ∧ S.sectionType key.kind = .input
    · have hv' : view < (c.forget n).world.viewCount ∧ S.sectionType key.kind = .input := hv
      simp only [runOp, step, if_pos hv, if_pos hv']
      refine ⟨congrArg (fun w => some { c with world := w }) hm, fun c' hc' => ?_⟩
      cases hc'
      refine framed _ ?_
      unfold mutateWorld
      split <;> rfl
    · have hv' : ¬ (view < (c.forget n).world.viewCount ∧ S.sectionType key.kind = .input) := hv
      simp only [runOp, step, if_neg hv, if_neg hv']
      exact ⟨rfl, fun _ h => by cases h⟩
  | intern kind value =>
    refine ⟨rfl, fun c' hc' => ?_⟩
    cases hc'
    exact framed _ rfl
  | bump view =>
    by_cases hv : view < c.world.viewCount
    · have hv' : view < (c.forget n).world.viewCount := hv
      simp only [runOp, step, if_pos hv, if_pos hv']
      refine ⟨rfl, fun c' hc' => ?_⟩
      cases hc'
      exact framed _ rfl
    · have hv' : ¬ view < (c.forget n).world.viewCount := hv
      simp only [runOp, step, if_neg hv, if_neg hv']
      exact ⟨rfl, fun _ h => by cases h⟩
  | snapshot =>
    refine ⟨rfl, fun c' hc' => ?_⟩
    cases hc'
    exact framed _ rfl
  | access view key want =>
    by_cases hv : view < c.world.viewCount ∧ S.sectionType key.kind = .derived
    · have hv' : view < (c.forget n).world.viewCount ∧ S.sectionType key.kind = .derived := hv
      simp only [runOp, step, if_pos hv, if_pos hv']
      refine finish_forget (c := { c with
        tasks := Function.update c.tasks c.taskCount ⟨view, key, want, [.enter key], none⟩
        taskCount := c.taskCount + 1 }) ⟨h.next, h.filed, fun t a ha => ?_⟩
      rcases eq_or_ne t c.taskCount with rfl | hne
      · simp only [Function.update_self] at ha
        rw [List.mem_singleton.mp ha]
        exact ⟨fun _ h => (by cases h), fun _ h => by cases h⟩
      · simp only [Function.update_of_ne hne] at ha
        exact h.acts t a ha
    · have hv' : ¬ (view < (c.forget n).world.viewCount ∧ S.sectionType key.kind = .derived) := hv
      simp only [runOp, step, if_neg hv, if_neg hv']
      exact ⟨rfl, fun _ h => by cases h⟩

/-- An operation goes the same way, and still deals with none of the entries. -/
theorem Holds.runOp {fuel : Nat} {op : Op V} (h : c.Holds n)
    (hrun : runOp S fuel c op = some c') :
    Config.runOp S fuel (c.forget n) op = some (c'.forget n) ∧ c'.Holds n := by
  obtain ⟨hforget, hkeep⟩ : Config.runOp S fuel (c.forget n) op =
      (Config.runOp S fuel c op).map (·.forget n) ∧
        ∀ c', Config.runOp S fuel c op = some c' → c'.Holds n := runOp_forget h
  exact ⟨hforget.trans (congrArg (Option.map _) hrun), hkeep c' hrun⟩

end Config

end forget

end Picante

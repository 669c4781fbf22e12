/-
# Who leads an entry

An entry stays filed in the registry as long as some access holds the guard for it, and no
longer: a leader that completes or fails its entry removes it, and a guard that is dropped does
so too.

* `Led` -- every filed entry is that of a guard on some stack, and only an access that leads
  holds a guard (`led_step`, `led_run`).
* `Led.unfiled` -- so between the operations of a sequential program nothing is filed.
-/
import Picante.Sequential

namespace Picante

variable {V : Type}

/-! ## 1. Guards -/

/-- The operation removes the entry from the registry. -/
def MicroOp.unregisters : MicroOp V → Bool
  | .unregister => true
  | _ => false

/-- Has made an entry, and not removed it. -/
def Pc.leads : Pc V → Bool
  | .computing .. | .reading .. => true
  | .finishing ops => ops.any (·.unregisters)
  | _ => false

theorem leads_afterRevalidation (view : ViewId) (rev : Revision) (src : Source V) (b : Bool) :
    (afterRevalidation view rev src b).leads = false := by
  cases src <;> cases b <;> rfl

theorem leads_finishing_cons {op : MicroOp V} {ops : List (MicroOp V)}
    (h : op.unregisters = false) :
    (Pc.finishing (op :: ops)).leads = (Pc.finishing ops).leads := by
  simp [Pc.leads, h]

/-- The registry has made the entry that a guard is for, and no entry from the next one on. -/
def Registry.Unmade (R : Registry V) : Prop :=
  ∀ e, R.nextEntry ≤ e → R.entries e = empty.entries e

/-- A guard is held by an access that leads, and is for the query and the revision of the access,
and for an entry that was made. -/
def Activation.GuardOk (R : Registry V) (a : Activation V) : Prop :=
  ∀ g, a.guard = some g → a.pc.leads ∧ g.key.query = a.key ∧ g.key.revision = a.rev ∧
    g.entry < R.nextEntry

section guardOk

variable {R R' : Registry V} {a a' : Activation V}

theorem Activation.GuardOk.of_none (h : a.guard = none) : a.GuardOk R := by
  intro g hg
  rw [h] at hg
  cases hg

theorem Activation.GuardOk.mono (h : a.GuardOk R) (hnext : R.nextEntry ≤ R'.nextEntry) :
    a.GuardOk R' := by
  intro g hg
  obtain ⟨hleads, hquery, hrevision, hmade⟩ := h g hg
  exact ⟨hleads, hquery, hrevision, Nat.lt_of_lt_of_le hmade hnext⟩

/-- An access that does not lead holds no guard. -/
theorem Activation.GuardOk.none (h : a.GuardOk R) (hpc : a.pc.leads = false) :
    a.guard = none := by
  cases hg : a.guard with
  | none => rfl
  | some g =>
    have hleads := (h g hg).1
    rw [hpc] at hleads
    cases hleads

/-- The activation keeps its guard. -/
theorem Activation.GuardOk.moved (h : a.GuardOk R) (hg : a'.guard = a.guard)
    (hkey : a'.key = a.key) (hrev : a'.rev = a.rev) (hpc : a.pc.leads → a'.pc.leads) :
    a'.GuardOk R := by
  intro g hg'
  obtain ⟨hleads, hquery, hrevision, hmade⟩ := h g (hg ▸ hg')
  exact ⟨hpc hleads, hquery.trans hkey.symm, hrevision.trans hrev.symm, hmade⟩

end guardOk

/-- The three ways in which a step of an activation bears on what is filed. -/
inductive GuardEffect (w w' : World V) (a a' : Activation V) : Prop
  | kept (hw : w'.registry.filed = w.registry.filed) (hg : a'.guard = a.guard)
  | filed (key : InFlightKey) (e : EntryId) (hg : a.guard = none)
      (hw : w'.registry.filed = Function.update w.registry.filed key (some e))
      (hg' : a'.guard = some ⟨key, e⟩)
  | removed (g : InFlightGuard) (hg : a.guard = some g)
      (hw : w'.registry.filed = Function.update w.registry.filed g.key none)
      (hg' : a'.guard = none)

theorem Touched.guard {w w' : World V} {view : ViewId} {a a' : Activation V} {src : Source V}
    {rest : List Dep} {r : PicanteResult Revision} (h : Touched w view a src rest r w' a') :
    a'.guard = a.guard ∧ a'.pc.leads = false := by
  cases h with
  | unchanged _ => exact ⟨rfl, rfl⟩
  | changed _ => exact ⟨rfl, leads_afterRevalidation ..⟩
  | failed => exact ⟨rfl, rfl⟩

section steps

variable [DecidableEq V] {S : Schema V} {w w' : World V} {view : ViewId} {task : TaskId}
  {below : List (Activation V)} {a a' : Activation V}

/-- A straight-line part stays well formed. -/
theorem ActStep.opsOk (h : ActStep S w view task below a w' (.goto a')) (hops : a.pc.OpsOk) :
    a'.pc.OpsOk := by
  cases h with
  | hit _ _ _ | poison _ _ | touchMissing _ _ _ | touchCycle _ _ _ | reverify _ _ => exact rfl
  | accept _ | unregistered _ _ => exact opsOk_afterRevalidation ..
  | touchInput _ _ ht | touchInterned _ _ _ ht => exact ht.opsOk
  | sharedHit _ _ _ => exact opsOk_adoptOps ..
  | followDone _ _ => exact opsOk_followOps ..
  | followFailed _ _ => exact opsOk_followFailedOps ..
  | finalize _ => exact opsOk_finalizeOps ..
  | updateDeps hpc | setCell hpc | notifyCell hpc | putShared hpc | setEntry hpc _
  | notifyEntry hpc _ | unregister hpc _ | unguarded hpc _ _ =>
    rw [hpc] at hops
    exact OpsOk.tail hops
  | _ => trivial

omit [DecidableEq V] in
theorem Resumed.opsOk {p p' : Activation V} {r : AccessResult V} (h : Resumed w view p r w' p')
    (hops : p.pc.OpsOk) : p'.pc.OpsOk := by
  cases h with
  | touched _ ht => exact ht.opsOk
  | answered _ => trivial
  | idle _ => exact hops

/-- **The effect of a step on what is filed.** -/
theorem ActStep.guardEffect (h : ActStep S w view task below a w' (.goto a'))
    (hops : a.pc.OpsOk) (ha : a.GuardOk w.registry) :
    GuardEffect w w' a a' ∧ a'.GuardOk w'.registry := by
  have idle : a.pc.leads = false → a'.guard = a.guard → a'.GuardOk w'.registry := fun hpc hg =>
    .of_none (hg.trans (ha.none hpc))
  cases h with
  | lead hpc _ =>
    have hnone : a.guard = none := ha.none (by rw [hpc]; rfl)
    refine ⟨.filed _ _ hnone rfl rfl, fun g hg => ?_⟩
    cases hg
    exact ⟨rfl, rfl, rfl, Nat.lt_succ_self _⟩
  | unregister hpc hg => exact ⟨.removed _ hg rfl rfl, .of_none rfl⟩
  | unguarded hpc _ hg => exact ⟨.kept rfl rfl, .of_none hg⟩
  | restart hpc _ =>
    rw [hpc] at hops
    obtain rfl := hops
    exact ⟨.kept rfl rfl, idle (by rw [hpc]; rfl) rfl⟩
  | touchInput hpc _ ht | touchInterned hpc _ _ ht =>
    refine ⟨.kept (by rw [ht.same.registry]) ht.guard.1, idle ?_ ht.guard.1⟩
    rw [hpc]
    rfl
  | sharedMiss hpc hw _ =>
    refine ⟨.kept (by rcases hw with rfl | rfl <;> rfl) rfl, idle (by rw [hpc]; rfl) rfl⟩
  | overtaken hpc =>
    exact ⟨.kept rfl rfl, idle (by rcases hpc with hpc | hpc <;> (rw [hpc]; rfl)) rfl⟩
  | top hpc | listen hpc | hit hpc _ _ | stale hpc _ _ | poison hpc _ | retry hpc _ | park hpc _
  | wake hpc _ | accept hpc | unregistered hpc _ | touchMissing hpc _ _ | touchCycle hpc _ _
  | reverify hpc _ | start hpc _ | sharedHit hpc _ _ | sharedStale hpc _ _ | follow hpc _
  | followReset hpc | followListen hpc | followPark hpc | followDone hpc _ | followFailed hpc _
  | followCancelled hpc | followWake hpc =>
    exact ⟨.kept rfl rfl, idle (by rw [hpc]; rfl) rfl⟩
  | @finalize prev out deps hpc =>
    refine ⟨.kept rfl rfl, ha.moved rfl rfl rfl fun _ => ?_⟩
    cases out <;> rfl
  | readInput hpc _ | readInterned hpc _ _ | readMissing hpc _ _ | readCycle hpc _ _ =>
    exact ⟨.kept rfl rfl, ha.moved rfl rfl rfl fun _ => rfl⟩
  | updateDeps hpc | setCell hpc | notifyCell hpc | putShared hpc | setEntry hpc _
  | notifyEntry hpc _ =>
    refine ⟨.kept rfl rfl, ha.moved rfl rfl rfl fun hleads => ?_⟩
    rw [hpc, leads_finishing_cons rfl] at hleads
    exact hleads

/-- Entries are made one after another, and only one that was made is changed. -/
theorem ActStep.unmade {m : Move V} (h : ActStep S w view task below a w' m)
    (ha : a.GuardOk w.registry) (hw : w.registry.Unmade) :
    w.registry.nextEntry ≤ w'.registry.nextEntry ∧ w'.registry.Unmade := by
  have update : ∀ {g x}, a.guard = some g → ({ w.registry with
      entries := Function.update w.registry.entries g.entry x } : Registry V).Unmade := by
    intro g x hg e he
    obtain ⟨-, -, -, hmade⟩ := ha g hg
    have hne : e ≠ g.entry := Nat.ne_of_gt (Nat.lt_of_lt_of_le hmade he)
    exact (Function.update_of_ne hne ..).trans (hw e he)
  cases h with
  | lead _ _ =>
    refine ⟨Nat.le_succ _, fun e he => ?_⟩
    have hlt : w.registry.nextEntry < e := he
    exact (Function.update_of_ne (Nat.ne_of_gt hlt) ..).trans (hw e (Nat.le_of_lt hlt))
  | setEntry _ hg | notifyEntry _ hg => exact ⟨Nat.le_refl _, update hg⟩
  | touchInput _ _ ht | touchInterned _ _ _ ht =>
    rw [ht.same.registry]
    exact ⟨Nat.le_refl _, hw⟩
  | sharedMiss _ hlook _ => rcases hlook with rfl | rfl <;> exact ⟨Nat.le_refl _, hw⟩
  | _ => exact ⟨Nat.le_refl _, hw⟩

theorem ActStep.call_guard {child : DynKey} (h : ActStep S w view task below a w' (.call a' child))
    (ha : a.GuardOk w.registry) : a'.guard = a.guard ∧ a'.GuardOk w.registry := by
  cases h with
  | touchCall hpc _ _ => exact ⟨rfl, .of_none (ha.none (by rw [hpc]; rfl))⟩
  | readCall hpc _ _ => exact ⟨rfl, ha.moved rfl rfl rfl fun _ => rfl⟩

/-- An activation that returns holds no guard. -/
theorem ActStep.ret_guard {r : AccessResult V} (h : ActStep S w view task below a w' (.ret r))
    (hops : a.pc.OpsOk) (ha : a.GuardOk w.registry) : a.guard = none := by
  cases h with
  | «return» hpc _ | raise hpc =>
    rw [hpc] at hops
    obtain rfl := hops
    exact ha.none (by rw [hpc]; rfl)

omit [DecidableEq V] in
theorem Resumed.guard {p p' : Activation V} {r : AccessResult V} (h : Resumed w view p r w' p')
    (hp : p.GuardOk w.registry) : p'.guard = p.guard ∧ p'.GuardOk w.registry := by
  cases h with
  | touched hpc ht =>
    have hnone := hp.none (by rw [hpc]; rfl)
    exact ⟨ht.guard.1, .of_none (ht.guard.1.trans hnone)⟩
  | answered hpc => exact ⟨rfl, hp.moved rfl rfl rfl fun _ => rfl⟩
  | idle _ => exact ⟨rfl, hp⟩

end steps

/-! ## 2. Filed entries are led -/

/-- Every filed entry is that of a guard on some stack. -/
structure Led (c : Config V) : Prop where
  unused : ∀ t, c.taskCount ≤ t → (c.tasks t).stack = []
  ops : ∀ t d a, c.act t d = some a → a.pc.OpsOk
  guards : ∀ t d a, c.act t d = some a → a.GuardOk c.world.registry
  unmade : c.world.registry.Unmade
  filed : ∀ key e, c.world.registry.filed key = some e →
    ∃ t d a, c.act t d = some a ∧ a.guard = some ⟨key, e⟩

theorem led_init : Led (Config.init : Config V) where
  unused _ _ := rfl
  ops _ _ _ := nofun
  guards _ _ _ := nofun
  unmade _ _ := rfl
  filed _ _ := nofun

open Config

section runs

variable [DecidableEq V] {S : Schema V} {c c' : Config V}

omit [DecidableEq V] in
/-- **The top activation of a task moves**, and takes its guard along. -/
theorem Led.moved (h : Led c) {t : TaskId} {a a' : Activation V} {below : List (Activation V)}
    {w : World V} (hst : (c.tasks t).stack = a :: below) (he : GuardEffect c.world w a a')
    (hops : a'.pc.OpsOk) (ha' : a'.GuardOk w.registry)
    (hnext : c.world.registry.nextEntry ≤ w.registry.nextEntry) (hunmade : w.registry.Unmade) :
    Led ({ c with world := w }.setTask t { c.tasks t with stack := a' :: below }) := by
  have htop := act_top hst
  have hact : ∀ t' d, ({ c with world := w }.setTask t { c.tasks t with stack := a' :: below }).act
      t' d = if t' = t ∧ d = below.length then some a' else c.act t' d :=
    fun _ _ => act_goto hst a'
  have keep : ∀ {key e}, (∃ t d a, c.act t d = some a ∧ a.guard = some ⟨key, e⟩) →
      (a.guard = some ⟨key, e⟩ → a'.guard = some ⟨key, e⟩) →
      ∃ t' d b, ({ c with world := w }.setTask t { c.tasks t with stack := a' :: below }).act t' d =
        some b ∧ b.guard = some ⟨key, e⟩ := by
    rintro key e ⟨t', d, b, hb, hg⟩ hkeep
    by_cases hd : t' = t ∧ d = below.length
    · obtain ⟨rfl, rfl⟩ := hd
      rw [htop] at hb
      cases hb
      exact ⟨t', below.length, a', by rw [hact, if_pos ⟨rfl, rfl⟩], hkeep hg⟩
    · exact ⟨t', d, b, by rw [hact, if_neg hd]; exact hb, hg⟩
  constructor
  · intro t' ht'
    have hne : t' ≠ t := by
      rintro rfl
      exact pending_of_stack hst (h.unused t' ht')
    simp only [setTask, Function.update_of_ne hne]
    exact h.unused t' ht'
  · intro t' d b hb
    rw [hact] at hb
    split at hb
    · cases hb
      exact hops
    · exact h.ops t' d b hb
  · intro t' d b hb
    rw [hact] at hb
    split at hb
    · cases hb
      exact ha'
    · exact (h.guards t' d b hb).mono hnext
  · exact hunmade
  · intro key e hf
    have hf' : w.registry.filed key = some e := hf
    cases he with
    | kept hw hg =>
      rw [hw] at hf'
      exact keep (h.filed key e hf') fun h => hg.trans h
    | filed key' e' hg hw hg' =>
      rw [hw, Function.update_apply] at hf'
      split at hf'
      · next heq =>
        cases hf'
        exact ⟨t, below.length, a', by rw [hact, if_pos ⟨rfl, rfl⟩], heq ▸ hg'⟩
      · refine keep (h.filed key e hf') fun hg'' => ?_
        rw [hg] at hg''
        cases hg''
    | removed g hg hw hg' =>
      rw [hw, Function.update_apply] at hf'
      split at hf'
      · cases hf'
      · next hne =>
        refine keep (h.filed key e hf') fun hg'' => ?_
        rw [hg] at hg''
        cases hg''
        exact absurd rfl hne

omit [DecidableEq V] in
/-- Another world in which the same is filed, and the stacks of a task with the same guards. -/
theorem Led.restacked (h : Led c) {t : TaskId} {task : Task V} {w : World V}
    (hpend : c.Pending t) (hw : w.registry = c.world.registry)
    (hacts : ∀ d b, ({ c with world := w }.setTask t task).act t d = some b →
      c.act t d = some b ∨ b.pc.OpsOk ∧ b.GuardOk c.world.registry)
    (hkeep : ∀ d b g, c.act t d = some b → b.guard = some g →
      ∃ d' b', ({ c with world := w }.setTask t task).act t d' = some b' ∧ b'.guard = some g) :
    Led ({ c with world := w }.setTask t task) := by
  have hother : ∀ {t'} d, t' ≠ t →
      ({ c with world := w }.setTask t task).act t' d = c.act t' d := by
    intro t' d hne
    rw [act_setTask, if_neg hne]
    rfl
  constructor
  · intro t' ht'
    have hne : t' ≠ t := by
      rintro rfl
      exact hpend (h.unused t' ht')
    simp only [setTask, Function.update_of_ne hne]
    exact h.unused t' ht'
  · intro t' d b hb
    rcases eq_or_ne t' t with rfl | hne
    · exact (hacts d b hb).elim (h.ops t' d b) (·.1)
    · rw [hother d hne] at hb
      exact h.ops t' d b hb
  · intro t' d b hb
    have hreg : ({ c with world := w }.setTask t task).world.registry = c.world.registry := hw
    rw [hreg]
    rcases eq_or_ne t' t with rfl | hne
    · exact (hacts d b hb).elim (h.guards t' d b) (·.2)
    · rw [hother d hne] at hb
      exact h.guards t' d b hb
  · exact hw ▸ h.unmade
  · intro key e hf
    have hf' : w.registry.filed key = some e := hf
    rw [hw] at hf'
    obtain ⟨t', d, b, hb, hg⟩ := h.filed key e hf'
    rcases eq_or_ne t' t with rfl | hne
    · obtain ⟨d', b', hb', hg'⟩ := hkeep d b _ hb hg
      exact ⟨t', d', b', hb', hg'⟩
    · exact ⟨t', d, b, by rw [hother d hne]; exact hb, hg⟩

theorem Led.taskStep {t : TaskId} (h : Led c) (hs : TaskStep S c t c') : Led c' := by
  cases hs with
  | @goto a a' below w hst ha =>
    have htop := act_top hst
    obtain ⟨he, hg⟩ := ha.guardEffect (h.ops _ _ _ htop) (h.guards _ _ _ htop)
    obtain ⟨hnext, hunmade⟩ := ha.unmade (h.guards _ _ _ htop) h.unmade
    exact h.moved hst he (ha.opsOk (h.ops _ _ _ htop)) hg hnext hunmade
  | @call a a' below w child hst ha =>
    have htop := act_top hst
    obtain ⟨rfl, -, -, hops, -⟩ := ha.call_pcOk .vacant
    obtain ⟨hguard, hg⟩ := ha.call_guard (h.guards _ _ _ htop)
    have hact : ∀ d, (c.setTask t
        { c.tasks t with stack := .enter child :: a' :: below }).act t d =
          if t = t ∧ d = below.length + 1 then some (.enter child)
          else if t = t ∧ d = below.length then some a' else c.act t d :=
      fun _ => act_call hst a' (.enter child)
    refine h.restacked (pending_of_stack hst) rfl (fun d b hb => ?_) fun d b g hb hbg => ?_
    · rw [hact] at hb
      split at hb
      · cases hb
        exact .inr ⟨trivial, .of_none rfl⟩
      · split at hb
        · cases hb
          exact .inr ⟨hops, hg⟩
        · exact .inl hb
    · have hlt : d ≠ below.length + 1 := by
        rintro rfl
        rw [act, hst] at hb
        obtain ⟨above, below', heq, hlen⟩ := atDepth_eq_some hb
        have := congrArg List.length heq
        simp at this
        omega
      by_cases hd : d = below.length
      · subst hd
        rw [htop] at hb
        cases hb
        exact ⟨below.length, a', by rw [hact]; simp, hguard.trans hbg⟩
      · exact ⟨d, b, by rw [hact]; simpa [hlt, hd] using hb, hbg⟩
  | @ret a w r hst ha =>
    have htop := act_top hst
    have hnone := ha.ret_guard (h.ops _ _ _ htop) (h.guards _ _ _ htop)
    obtain ⟨rfl, -⟩ := ha.ret_owes (h.ops _ _ _ htop)
    have hact : ∀ d, (c.setTask t { c.tasks t with stack := [], result := some r }).act t d =
        if t = t ∧ d = 0 then none else c.act t d := fun _ => act_ret hst r
    refine h.restacked (pending_of_stack hst) rfl (fun d b hb => ?_) fun d b g hb hbg => ?_
    · rw [hact] at hb
      split at hb
      · cases hb
      · exact .inl hb
    · by_cases hd : d = 0
      · subst hd
        rw [show c.act t 0 = some a from htop] at hb
        cases hb
        rw [hnone] at hbg
        cases hbg
      · exact ⟨d, b, by rw [hact]; simpa [hd] using hb, hbg⟩
  | @resume a p p' below w w' r hst ha hp =>
    have htop := act_top hst
    have hnone := ha.ret_guard (h.ops _ _ _ htop) (h.guards _ _ _ htop)
    obtain ⟨rfl, -⟩ := ha.ret_owes (h.ops _ _ _ htop)
    have hpact : c.act t below.length = some p := by
      rw [act_eq_below hst (by simp)]
      simp
    obtain ⟨hguard, hg⟩ := hp.guard (h.guards _ _ _ hpact)
    have hact : ∀ d, ({ c with world := w' }.setTask t { c.tasks t with stack := p' :: below }).act
        t d = if t = t ∧ d = below.length + 1 then none
          else if t = t ∧ d = below.length then some p' else c.act t d :=
      fun _ => act_resume hst p'
    refine h.restacked (pending_of_stack hst) hp.same.registry
      (fun d b hb => ?_) fun d b g hb hbg => ?_
    · rw [hact] at hb
      split at hb
      · cases hb
      · split at hb
        · cases hb
          exact .inr ⟨hp.opsOk (h.ops _ _ _ hpact), hg⟩
        · exact .inl hb
    · by_cases hd : d = below.length + 1
      · subst hd
        rw [show c.act t (below.length + 1) = some a from htop] at hb
        cases hb
        rw [hnone] at hbg
        cases hbg
      · by_cases hd' : d = below.length
        · subst hd'
          rw [hpact] at hb
          cases hb
          exact ⟨below.length, p', by rw [hact]; simp, hguard.trans hbg⟩
        · exact ⟨d, b, by rw [hact]; simpa [hd, hd'] using hb, hbg⟩

omit [DecidableEq V] in
/-- What is still filed was not led by a guard that was dropped. -/
theorem filed_cancelGuards {w : World V} {stack : List (Activation V)} {key : InFlightKey}
    {e : EntryId} (h : (cancelGuards w stack).registry.filed key = some e) :
    w.registry.filed key = some e ∧ ∀ a ∈ stack, ∀ g, a.guard = some g → g.key ≠ key := by
  induction stack generalizing w with
  | nil => exact ⟨h, fun a ha => absurd ha List.not_mem_nil⟩
  | cons a stack ih =>
    unfold cancelGuards at h
    cases hg : a.guard with
    | none =>
      rw [hg] at h
      obtain ⟨hf, hstack⟩ := ih h
      refine ⟨hf, fun b hb g hbg => ?_⟩
      rcases List.mem_cons.mp hb with rfl | hb
      · rw [hg] at hbg
        cases hbg
      · exact hstack b hb g hbg
    | some g =>
      rw [hg] at h
      obtain ⟨hf, hstack⟩ := ih h
      have hf' : Function.update w.registry.filed g.key none key = some e := hf
      rw [Function.update_apply] at hf'
      split at hf'
      · cases hf'
      · next hne =>
        refine ⟨hf', fun b hb g' hbg => ?_⟩
        rcases List.mem_cons.mp hb with rfl | hb
        · rw [hg] at hbg
          cases hbg
          exact fun heq => hne heq.symm
        · exact hstack b hb g' hbg

omit [DecidableEq V] in
/-- Dropping guards makes no entry, and changes none that was not made. -/
theorem unmade_cancelGuards {w : World V} {stack : List (Activation V)}
    (hstack : ∀ a ∈ stack, a.GuardOk w.registry) (h : w.registry.Unmade) :
    (cancelGuards w stack).registry.nextEntry = w.registry.nextEntry ∧
      (cancelGuards w stack).registry.Unmade := by
  induction stack generalizing w with
  | nil => exact ⟨rfl, h⟩
  | cons a stack ih =>
    obtain ⟨ha, hrest⟩ := List.forall_mem_cons.mp hstack
    unfold cancelGuards
    cases hg : a.guard with
    | none => exact ih hrest h
    | some g =>
      refine ih (w := w.modifyRegistry (·.cancel g)) hrest fun e he => ?_
      obtain ⟨-, -, -, hmade⟩ := ha g hg
      have hne : e ≠ g.entry := Nat.ne_of_gt (Nat.lt_of_lt_of_le hmade he)
      refine Eq.trans ?_ (h e he)
      simp [World.modifyRegistry, Registry.cancel, Registry.remove, Registry.notify,
        Registry.setState, hne]

omit [DecidableEq V] in
theorem Led.dropped (h : Led c) {t : TaskId} (hs : dropTask c t = some c') : Led c' := by
  unfold dropTask at hs
  cases hst : (c.tasks t).stack with
  | nil => simp [hst] at hs
  | cons a below =>
    simp only [hst] at hs
    split at hs
    · cases hs
      have hact : ∀ t' d, ({ c with world := cancelGuards c.world (a :: below) }.setTask t
          { c.tasks t with stack := [] }).act t' d = if t' = t then none else c.act t' d := by
        intro t' d
        rw [act_setTask]
        split <;> rfl
      have hmem : ∀ b ∈ a :: below, ∃ d, c.act t d = some b := by
        intro b hb
        obtain ⟨d, hd⟩ := List.mem_iff_getElem?.mp (List.mem_reverse.mpr (hst ▸ hb))
        exact ⟨d, hd⟩
      obtain ⟨hnext, hunmade⟩ := unmade_cancelGuards (fun b hb => by
        obtain ⟨d, hd⟩ := hmem b hb
        exact h.guards t d b hd) h.unmade
      constructor
      · intro t' ht'
        unfold setTask
        rcases eq_or_ne t' t with rfl | hne
        · simp
        · simp only [Function.update_of_ne hne]
          exact h.unused t' ht'
      · intro t' d b hb
        rw [hact] at hb
        split at hb
        · cases hb
        · exact h.ops t' d b hb
      · intro t' d b hb
        rw [hact] at hb
        split at hb
        · cases hb
        · exact (h.guards t' d b hb).mono (Nat.le_of_eq hnext.symm)
      · exact hunmade
      · intro key e hf
        obtain ⟨hf', hstack⟩ := filed_cancelGuards hf
        obtain ⟨t', d, b, hb, hg⟩ := h.filed key e hf'
        by_cases ht : t' = t
        · subst ht
          unfold act at hb
          rw [hst] at hb
          obtain ⟨above, below', heq, -⟩ := atDepth_eq_some hb
          have hmem : b ∈ a :: below := by
            rw [heq]
            simp
          exact absurd rfl (hstack b hmem _ hg)
        · exact ⟨t', d, b, by rw [hact, if_neg ht]; exact hb, hg⟩
    · cases hs

omit [DecidableEq V] in
/-- Nothing happens to the tasks and to what is filed. -/
theorem Led.framed (h : Led c) (w : World V) (ms : List (Mutator V))
    (hw : w.registry = c.world.registry) : Led { c with world := w, mutators := ms } where
  unused := h.unused
  ops := h.ops
  guards t d a ha := (h.guards t d a ha).mono (Nat.le_of_eq (congrArg _ hw.symm))
  unmade := hw ▸ h.unmade
  filed key e hf := h.filed key e (hw ▸ hf)

/-- A task starts, takes a step or is dropped. -/
def Label.ofTask : Label V → Bool
  | .spawn .. | .step _ | .drop _ => true
  | _ => false

/-- An operation leaves the tasks and the registry as they are. -/
theorem framed_of_operation {l : Label V} (hl : l.ofTask = false) (hs : step S c l = some c') :
    ∃ w ms, c' = { c with world := w, mutators := ms } ∧ w.registry = c.world.registry := by
  cases l with
  | spawn _ _ _ | step _ | drop _ => cases hl
  | mutate view key value =>
    simp only [step] at hs
    split at hs <;> cases hs
    refine ⟨_, _, rfl, ?_⟩
    unfold mutateWorld
    split <;> rfl
  | «begin» view key value =>
    simp only [step] at hs
    split at hs <;> cases hs
    exact ⟨c.world, _, rfl, rfl⟩
  | advance n =>
    simp only [step] at hs
    split at hs
    · cases hs
    · split at hs
      · cases hs
      · next hm =>
        cases hs
        refine ⟨_, _, rfl, ?_⟩
        unfold stepMutator at hm
        split at hm
        · split at hm <;> cases hm <;> rfl
        all_goals cases hm
        all_goals rfl
  | intern kind value =>
    cases hs
    exact ⟨c.world.intern kind value, c.mutators, rfl, rfl⟩
  | bump view =>
    simp only [step] at hs
    split at hs <;> cases hs
    exact ⟨c.world.modifyRuntime view (·.bumpRevision), c.mutators, rfl, rfl⟩
  | snapshot =>
    cases hs
    exact ⟨c.world.snapshot, c.mutators, rfl, rfl⟩

/-- **In every run every filed entry is led.** -/
theorem led_step {l : Label V} (h : Led c) (hs : step S c l = some c') : Led c' := by
  cases l with
  | spawn view key want =>
    simp only [step] at hs
    split at hs
    · cases hs
      have hold : ∀ {t' d}, t' ≠ c.taskCount → ({ c with
          tasks := Function.update c.tasks c.taskCount ⟨view, key, want, [.enter key], none⟩
          taskCount := c.taskCount + 1 } : Config V).act t' d = c.act t' d := by
        intro t' d hne
        unfold act
        simp only [Function.update_of_ne hne]
      have hnew : ∀ {d b}, ({ c with
          tasks := Function.update c.tasks c.taskCount ⟨view, key, want, [.enter key], none⟩
          taskCount := c.taskCount + 1 } : Config V).act c.taskCount d = some b →
            b = .enter key := by
        intro d b hb
        simp only [act, Function.update_self, atDepth_cons, atDepth_nil] at hb
        split at hb
        · exact (Option.some.inj hb).symm
        · cases hb
      constructor
      · intro t' ht'
        have ht : c.taskCount + 1 ≤ t' := ht'
        have hne : t' ≠ c.taskCount := by omega
        simp only [Function.update_of_ne hne]
        exact h.unused t' (by omega)
      · intro t' d b hb
        rcases eq_or_ne t' c.taskCount with rfl | hne
        · rw [hnew hb]
          trivial
        · exact h.ops t' d b (hold hne ▸ hb)
      · intro t' d b hb
        rcases eq_or_ne t' c.taskCount with rfl | hne
        · rw [hnew hb]
          exact .of_none rfl
        · exact h.guards t' d b (hold hne ▸ hb)
      · exact h.unmade
      · intro key' e hf
        obtain ⟨t', d, b, hb, hg⟩ := h.filed key' e hf
        have hne : t' ≠ c.taskCount := by
          rintro rfl
          rw [act_none_of_stack (h.unused _ (Nat.le_refl _))] at hb
          cases hb
        exact ⟨t', d, b, by rw [hold hne]; exact hb, hg⟩
    · cases hs
  | step t => exact h.taskStep (taskStep_of_step hs)
  | drop t => exact h.dropped hs
  | _ =>
    obtain ⟨w, ms, rfl, hw⟩ := framed_of_operation rfl hs
    exact h.framed w ms hw

theorem led_run {ok : Config V → Label V → Config V → Prop} {ls : List (Label V)} (h : Led c)
    (hrun : Trans.Steps (step S) ok c ls c') : Led c' :=
  hrun.invariant h fun _ _ _ hm hl _ => led_step hm hl

omit [DecidableEq V] in
/-- **Where no task is running, nothing is filed.** -/
theorem Led.unfiled (h : Led c) (hidle : c.Idle) (key : InFlightKey) :
    c.world.registry.filed key = none := by
  cases hf : c.world.registry.filed key with
  | none => rfl
  | some e =>
    obtain ⟨t, d, a, ha, -⟩ := h.filed key e hf
    exact absurd (pending_of_act ha) (hidle t)

end runs

end Picante

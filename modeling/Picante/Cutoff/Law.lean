/-
# The early cutoff law

`changed_at` is set in four places: by a computation, which compares the new value with the one
its cell held (`changedAtOf`), by the adoption of a shared record, by a revalidation, and by a
follower.  In a sequential run on the database they all keep one law (`early_cutoff_law`): from
one successful access to the next, with no failed computation in between, `changed_at` stays if
the value does, and is the revision of the later access otherwise.

* `Lawful base rev x` -- the law, for the result `x` at revision `rev` after `base`.
* `Held c q base` -- the cell of `q` holds `base`, and whoever works on it knows it, or it has
  just been replaced by a lawful result that is about to be returned (`Held.step`).
-/
import Picante.Cutoff.OneView
import Picante.Cancellation

namespace Picante

open Config

variable {V : Type}

/-! ## 1. The law -/

/-- The value of a cell with its `changed_at`. -/
def ReadyRecord.data (r : ReadyRecord V) : V × Revision := (r.value, r.changedAt)

/-- The value of a shared record with its `changed_at`. -/
def SharedCacheRecord.data (F : SharedCacheRecord V) : V × Revision := (F.value, F.changedAt)

/-- What may be on file at revision `rev` where `base` was before: the same, or another value
that has changed at `rev`. -/
def Lawful (base : Previous V) (rev : Revision) (x : V × Revision) : Prop :=
  ∀ D, base = some D → x = D ∨ x.1 ≠ D.1 ∧ x.2 = rev

theorem lawful_same {D : V × Revision} {rev : Revision} : Lawful (some D) rev D :=
  fun _ h => .inl (Option.some.inj h)

theorem lawful_changedAtOf [DecidableEq V] (base : Previous V) (rev : Revision) (v : V) :
    Lawful base rev (v, changedAtOf base rev v) := by
  rintro ⟨v₀, ch₀⟩ rfl
  unfold changedAtOf
  by_cases hv : v₀ = v
  · subst hv
    exact .inl (by simp)
  · exact .inr ⟨fun h => hv h.symm, by simp [hv]⟩

/-! ## 2. What an access to the key knows -/

/-- The rest of a straight-line part returns `x`, and stores nothing on the way. -/
def Delivers (x : V × Revision) : List (MicroOp V) → Prop
  | .checked r :: _ => r = .ok x
  | .setEntry _ :: ops | .notifyEntry :: ops | .unregister :: ops => Delivers x ops
  | _ => False

/-- The rest of a straight-line part puts `x` into the shared cache, and returns it. -/
def Publishes (x : V × Revision) : List (MicroOp V) → Prop
  | .putShared F :: ops => F.data = x ∧ Delivers x ops
  | .notifyCell :: ops | .updateDeps _ :: ops => Publishes x ops
  | _ => False

/-- A straight-line part for a cell that holds `base`: it stores a lawful result and publishes
it, or it stores none and returns no other value than the one held. -/
def OpsKeep (base : Previous V) (rev : Revision) : List (MicroOp V) → Prop
  | .setCell (.ready r) :: ops => Lawful base rev r.data ∧ Publishes r.data ops
  | .setCell (.poisoned _ _) :: ops => base = none ∧ OpsKeep base rev ops
  | .setCell _ :: _ | .putShared _ :: _ => False
  | .checked (.ok x) :: _ => base = some x
  | _ :: ops => OpsKeep base rev ops
  | [] => True

/-- A shared record holds `base`, if that is a value. -/
def SharedCacheRecord.Holds (base : Previous V) (F : SharedCacheRecord V) : Prop :=
  ∀ D, base = some D → F.data = D

/-- A shared record that is revalidated holds `base`, and so did the cell. -/
def Source.Keeps (base : Previous V) : Source V → Prop
  | .cell .. => True
  | .shared F prev => F.Holds base ∧ prev = base

/-- An access that has put its cell, which held `base`, in state running knows `base`. -/
def Pc.Keeps (base : Previous V) (rev : Revision) : Pc V → Prop
  | .revalidate src _ | .touching src _ _ => src.Keeps base
  | .sharedGet prev | .lead prev | .computing prev _ _ | .reading prev _ _ _ => prev = base
  | .followReset _ | .followListen _ | .followRead _ _ | .followParked _ _ => False
  | .finishing ops => OpsKeep base rev ops
  | _ => True

section keeps

variable {base : Previous V} {rev : Revision} {w w' : World V} {view : ViewId}
  {a a' : Activation V} {q : DynKey}

theorem opsKeep_adoptOps {F : SharedCacheRecord V} (hF : F.Holds base) :
    OpsKeep base rev (adoptOps view rev F) :=
  ⟨fun D hD => .inl (hF D hD), rfl, rfl⟩

theorem keeps_afterRevalidation {src : Source V} (h : src.Keeps base) (b : Bool) :
    (afterRevalidation view rev src b).Keeps base rev := by
  cases src with
  | cell deps ch f => cases b <;> trivial
  | shared F prev =>
    cases b with
    | true => exact opsKeep_adoptOps h.1
    | false => exact h.2

theorem Touched.keeps {src : Source V} {rest : List Dep} {r : PicanteResult Revision}
    (ht : Touched w view a src rest r w' a') (h : src.Keeps base) : a'.pc.Keeps base a'.rev := by
  cases ht with
  | unchanged _ => exact h
  | changed _ => exact keeps_afterRevalidation h false
  | failed => trivial

/-- What waits for a nested access knows of `base` when it goes on. -/
theorem Resumed.keeps {p p' : Activation V} {r : AccessResult V} (hp : Resumed w view p r w' p')
    (h : p.pc.Keeps base p.rev) : p'.pc.Keeps base p'.rev := by
  cases hp with
  | touched hpc ht =>
    rw [hpc] at h
    exact ht.keeps h
  | answered hpc =>
    rw [hpc] at h
    exact h
  | idle _ => exact h

/-- The cell of `q` in the database holds `base`, and so does its shared record. -/
structure World.Keeps (w : World V) (q : DynKey) (base : Previous V) : Prop where
  ready : ∀ r, w.state 0 q = .ready r → base = some r.data
  vacant : w.state 0 q = .vacant → base = none
  poisoned : ∀ e ver, w.state 0 q = .poisoned e ver → base = none
  shared : ∀ F, w.shared (w.scope 0) q = some F → F.Holds base

theorem World.Keeps.of_eq (h : w.Keeps q base) (hstate : w'.state 0 q = w.state 0 q)
    (hshared : w'.shared (w'.scope 0) q = w.shared (w.scope 0) q) : w'.Keeps q base := by
  refine ⟨?_, ?_, ?_, ?_⟩
  · rw [hstate]
    exact h.ready
  · rw [hstate]
    exact h.vacant
  · rw [hstate]
    exact h.poisoned
  · rw [hshared]
    exact h.shared

theorem World.Keeps.of_same (h : w.Keeps q base) (hs : w.Same w') : w'.Keeps q base :=
  h.of_eq (hs.state 0 q) (by rw [hs.shared, hs.scope])

end keeps

/-- An access has set the cell of `q` to a lawful result, which it is about to return. -/
structure Stored (w : World V) (q : DynKey) (base : Previous V) (a : Activation V)
    (x : V × Revision) : Prop where
  lawful : Lawful base a.rev x
  ready : ∃ r, w.state 0 q = .ready r ∧ r.data = x
  ops : ∃ ops, a.pc = .finishing ops ∧ (Publishes x ops ∨
    Delivers x ops ∧ ∀ F, w.shared (w.scope 0) q = some F → F.data = x)

/-- The compute function of the access has ended in an error. -/
def Pc.failing : Pc V → Bool
  | .computing _ (.done (.error _)) _ => true
  | _ => false

section step

variable [DecidableEq V] {S : Schema V} {base : Previous V} {w w' : World V} {task : TaskId}
  {a a' : Activation V} {below : List (Activation V)}

/-- **A step of an access to the key**: its cell still holds `base`, or a lawful result. -/
theorem ActStep.keeps (h : ActStep S w 0 task below a w' (.goto a')) (hw : w.Keeps a.key base)
    (ha : a.pc.Keeps base a.rev) (hlead : ∀ prev, a.pc = .lead prev →
      w.registry.filed ⟨w.scope 0, a.rev, a.key⟩ = none) (hfail : a.pc.failing = false) :
    w'.Keeps a.key base ∧ a'.pc.Keeps base a'.rev ∨ ∃ x, Stored w' a.key base a' x := by
  cases h with
  | top hpc | listen hpc | park hpc _ | wake hpc _ | retry hpc _ | stale hpc _ _ | poison hpc _
  | overtaken hpc | restart hpc _ => exact .inl ⟨hw, trivial⟩
  | hit hpc hs hr => exact .inl ⟨hw, hw.ready _ hs⟩
  | accept hpc =>
    rw [hpc] at ha
    exact .inl ⟨hw.of_same (.logged w _), keeps_afterRevalidation ha true⟩
  | unregistered hpc _ =>
    rw [hpc] at ha
    exact .inl ⟨hw.of_same (.logged w _), keeps_afterRevalidation ha false⟩
  | touchInput hpc _ ht | touchInterned hpc _ _ ht =>
    rw [hpc] at ha
    exact .inl ⟨hw.of_same ht.same, ht.keeps ha⟩
  | touchMissing hpc _ _ | touchCycle hpc _ _ =>
    exact .inl ⟨hw.of_same ((World.Same.logged w _).trans (.logged _ _)), trivial⟩
  | reverify hpc hs =>
    have hbase := hw.ready _ hs
    refine .inl ⟨⟨fun r hr => ?_, fun hv => ?_, fun e ver hp => ?_, ?_⟩, hbase⟩
    · rw [World.state_setCell_self] at hr
      cases hr
      exact hbase
    · rw [World.state_setCell_self] at hv
      cases hv
    · rw [World.state_setCell_self] at hp
      cases hp
    · rw [World.scope_setCell]
      exact hw.shared
  | @start prev hpc hs =>
    have hprev : prev = base := by
      rcases hs with ⟨r, hs, -, rfl⟩ | ⟨hs, rfl⟩
      · exact (hw.ready r hs).symm
      · rcases hs with hs | ⟨e, ver, hs, -⟩
        · exact (hw.vacant hs).symm
        · exact (hw.poisoned e ver hs).symm
    refine .inl ⟨⟨fun r hr => ?_, fun hv => ?_, fun e ver hp => ?_, ?_⟩, hprev⟩
    · rw [World.state_setCell_self] at hr
      cases hr
    · rw [World.state_setCell_self] at hv
      cases hv
    · rw [World.state_setCell_self] at hp
      cases hp
    · rw [World.scope_setCell]
      exact hw.shared
  | sharedMiss hpc hlook hs =>
    rw [hpc] at ha
    refine .inl ⟨?_, ha⟩
    rcases hlook with rfl | rfl
    · exact hw.of_eq rfl rfl
    · refine ⟨hw.ready, hw.vacant, hw.poisoned, fun F hF => ?_⟩
      exact absurd (hF.symm.trans hs) nofun
  | sharedHit hpc hs _ => exact .inl ⟨hw.of_eq rfl rfl, opsKeep_adoptOps (hw.shared _ hs)⟩
  | sharedStale hpc hs _ =>
    rw [hpc] at ha
    exact .inl ⟨hw.of_eq rfl rfl, hw.shared _ hs, ha⟩
  | follow hpc hf =>
    rw [hlead _ hpc] at hf
    cases hf
  | lead hpc _ =>
    rw [hpc] at ha
    exact .inl ⟨hw.of_eq rfl rfl, ha⟩
  | followReset hpc | followListen hpc | followPark hpc | followDone hpc _ | followFailed hpc _
  | followCancelled hpc | followWake hpc =>
    rw [hpc] at ha
    exact ha.elim
  | @finalize prev out deps hpc =>
    rw [hpc] at ha hfail
    obtain rfl : prev = base := ha
    cases out with
    | error e => cases hfail
    | ok v => exact .inl ⟨hw, lawful_changedAtOf prev a.rev v, rfl, rfl⟩
  | readInput hpc _ | readInterned hpc _ _ =>
    rw [hpc] at ha
    exact .inl ⟨hw, ha⟩
  | readMissing hpc _ _ | readCycle hpc _ _ =>
    rw [hpc] at ha
    exact .inl ⟨hw.of_same (.logged w _), ha⟩
  | updateDeps hpc =>
    rw [hpc] at ha
    exact .inl ⟨hw.of_eq (World.state_modifyRuntime ..)
      (congrArg (w.shared · a.key) (World.scope_updateQueryDeps ..)), ha⟩
  | @setCell st ops hpc =>
    rw [hpc] at ha
    cases st with
    | vacant => exact ha.elim
    | running started o => exact ha.elim
    | ready r =>
      exact .inr ⟨r.data, ha.1, ⟨r, World.state_setCell_self .., rfl⟩, ops, rfl, .inl ha.2⟩
    | poisoned e ver =>
      obtain ⟨rfl, ha⟩ := ha
      refine .inl ⟨⟨fun r hr => ?_, fun _ => rfl, fun _ _ _ => rfl, fun F _ => nofun⟩, ha⟩
      rw [World.state_setCell_self] at hr
      cases hr
  | notifyCell hpc =>
    rw [hpc] at ha
    exact .inl ⟨hw.of_eq (World.state_notifyCell ..)
      (congrArg (w.shared · a.key) (World.scope_notifyCell ..)), ha⟩
  | putShared hpc =>
    rw [hpc] at ha
    exact ha.elim
  | setEntry hpc _ | notifyEntry hpc _ | unregister hpc _ =>
    rw [hpc] at ha
    exact .inl ⟨⟨hw.ready, hw.vacant, hw.poisoned, hw.shared⟩, ha⟩
  | unguarded hpc hop _ =>
    rw [hpc] at ha
    refine .inl ⟨hw, ?_⟩
    rcases hop with ⟨st, rfl⟩ | rfl | rfl <;> exact ha

/-- **The result that was stored is published, then returned.** -/
theorem ActStep.delivers {x : V × Revision} (h : ActStep S w 0 task below a w' (.goto a'))
    (hst : Stored w a.key base a x) (hrev : w.rev 0 = a.rev) : Stored w' a.key base a' x := by
  obtain ⟨hlaw, hready, ops, hpc, hops⟩ := hst
  cases h with
  | updateDeps hpc' =>
    rw [hpc] at hpc'
    cases hpc'
    refine ⟨hlaw, ?_, _, rfl, ?_⟩
    · obtain ⟨r, hr, hx⟩ := hready
      exact ⟨r, (World.state_modifyRuntime ..).trans hr, hx⟩
    · exact .inl (hops.resolve_right fun h => h.1.elim)
  | setCell hpc' =>
    rw [hpc] at hpc'
    cases hpc'
    rcases hops with h | h
    · exact h.elim
    · exact h.1.elim
  | notifyCell hpc' =>
    rw [hpc] at hpc'
    cases hpc'
    refine ⟨hlaw, ?_, _, rfl, .inl (hops.resolve_right fun h => h.1.elim)⟩
    obtain ⟨r, hr, hx⟩ := hready
    exact ⟨r, (World.state_notifyCell ..).trans hr, hx⟩
  | putShared hpc' =>
    rw [hpc] at hpc'
    cases hpc'
    obtain ⟨hF, hd⟩ : _ ∧ _ := hops.resolve_right fun h => h.1.elim
    refine ⟨hlaw, hready, _, rfl, .inr ⟨hd, fun F h => ?_⟩⟩
    have h' : (w.putShared (w.scope 0) a.key _).shared (w.scope 0) a.key = some F := h
    rw [World.shared_putShared, if_pos ⟨rfl, rfl⟩] at h'
    cases h'
    exact hF
  | setEntry hpc' _ | notifyEntry hpc' _ | unregister hpc' _ =>
    rw [hpc] at hpc'
    cases hpc'
    exact ⟨hlaw, hready, _, rfl, .inr (hops.resolve_left fun h => h.elim)⟩
  | unguarded hpc' hop _ =>
    rw [hpc] at hpc'
    cases hpc'
    refine ⟨hlaw, hready, _, rfl, .inr ?_⟩
    rcases hop with ⟨st, rfl⟩ | rfl | rfl <;> exact hops.resolve_left fun h => h.elim
  | restart _ hne => exact absurd hrev hne
  | overtaken hpc' => rcases hpc' with hpc' | hpc' <;> (rw [hpc] at hpc'; cases hpc')
  | top hpc' | listen hpc' | hit hpc' | stale hpc' | poison hpc' | retry hpc' | park hpc'
  | wake hpc' | accept hpc' | unregistered hpc' | touchInput hpc' | touchInterned hpc'
  | touchMissing hpc' | touchCycle hpc' | reverify hpc' | start hpc' | sharedMiss hpc'
  | sharedHit hpc' | sharedStale hpc' | follow hpc' | lead hpc' | followReset hpc'
  | followListen hpc' | followPark hpc' | followDone hpc' | followFailed hpc'
  | followCancelled hpc' | followWake hpc' | finalize hpc' | readInput hpc' | readInterned hpc'
  | readMissing hpc' | readCycle hpc' =>
    rw [hpc] at hpc'
    cases hpc'

/-- A step of an access to another key leaves the cell and the record of `q` alone. -/
theorem ActStep.keeps_other {m : Move V} {q : DynKey} (h : ActStep S w 0 task below a w' m)
    (hq : q ≠ a.key) : w'.state 0 q = w.state 0 q ∧
      w'.shared (w'.scope 0) q = w.shared (w.scope 0) q := by
  refine ⟨congrArg ErasedCell.state (h.cell_other fun h => hq h.2), ?_⟩
  rw [h.fixed.scope]
  cases h with
  | touchInput _ _ ht | touchInterned _ _ _ ht => rw [ht.same.shared]
  | sharedMiss _ hw _ =>
    rcases hw with rfl | rfl
    · rfl
    · exact (World.shared_evictShared ..).trans (if_neg fun h => hq h.2)
  | putShared _ => exact (World.shared_putShared ..).trans (if_neg fun h => hq h.2)
  | _ => rfl

end step

/-! ## 3. From one access to the next -/

/-- The step of task `t` returns `r` from an access to `q`. -/
def Config.Returns [DecidableEq V] (S : Schema V) (c : Config V) (t : TaskId) (q : DynKey)
    (r : AccessResult V) : Prop :=
  ∃ a below w, (c.tasks t).stack = a :: below ∧ a.key = q ∧
    stepActivation S c.world (c.tasks t).view t below a = some (w, .ret r)

/-- The step of task `t` ends a computation of `q` with an error. -/
def Config.Fails (c : Config V) (t : TaskId) (q : DynKey) : Prop :=
  ∃ a below, (c.tasks t).stack = a :: below ∧ a.key = q ∧ a.pc.failing

/-- The cell of `q` holds `base`, and every access to `q` knows. -/
structure Keeps (c : Config V) (q : DynKey) (base : Previous V) : Prop where
  world : c.world.Keeps q base
  le : ∀ D, base = some D → D.2 ≤ c.world.rev 0
  acts : ∀ t, ∀ a ∈ (c.tasks t).stack, a.key = q → a.pc.Keeps base a.rev

/-- The cell of `q` holds `base`, and every access to `q` knows; or an access has just replaced
it by a lawful result, which it is about to return. -/
inductive Held (c : Config V) (q : DynKey) (base : Previous V) : Prop
  | kept (h : Keeps c q base)
  | stored {t : TaskId} {a : Activation V} {below : List (Activation V)} {x : V × Revision}
      (hst : (c.tasks t).stack = a :: below) (hkey : a.key = q)
      (hx : Stored c.world q base a x)

theorem keeps_init (q : DynKey) : Keeps (init : Config V) q none where
  world := ⟨nofun, fun _ => rfl, fun _ _ _ => rfl, nofun⟩
  le := nofun
  acts _ _ h := absurd h List.not_mem_nil

section runs

variable [DecidableEq V] {S : Schema V} {c c' : Config V} {t : TaskId} {q : DynKey}
  {base : Previous V}

theorem ActStep.call_keeps {w w' : World V} {below : List (Activation V)} {a a' : Activation V}
    {child : DynKey} (h : ActStep S w 0 t below a w' (.call a' child))
    (ha : a.pc.Keeps base a.rev) : a'.pc.Keeps base a'.rev := by
  cases h with
  | touchCall hpc _ _ | readCall hpc _ _ =>
    rw [hpc] at ha
    exact ha

/-- An access returns at the end of a straight-line part: in the revision it has read, or with
an error that was passed on. -/
theorem ActStep.ret_pc {w w' : World V} {view : ViewId} {below : List (Activation V)}
    {a : Activation V} {r : AccessResult V} (h : ActStep S w view t below a w' (.ret r)) :
    ∃ ops, a.pc = .finishing (.checked r :: ops) ∧ w.rev view = a.rev ∨
      ∃ e, r = .error e ∧ a.pc = .finishing (.raise e :: ops) := by
  cases h with
  | «return» hpc hr => exact ⟨_, .inl ⟨hpc, hr⟩⟩
  | raise hpc => exact ⟨_, .inr ⟨_, rfl, hpc⟩⟩

/-- So it returns a value only in the revision it has read. -/
theorem returns_ok {x : V × Revision} (h : c.Returns S t q (.ok x)) :
    ∃ a below ops, (c.tasks t).stack = a :: below ∧ a.key = q ∧
      a.pc = .finishing (.checked (.ok x) :: ops) ∧ c.world.rev (c.tasks t).view = a.rev := by
  obtain ⟨a, below, w, hst, hkey, hstep⟩ := h
  have hact : ActStep S c.world (c.tasks t).view t below a w (.ret (.ok x)) := actStep_of_step hstep
  obtain ⟨ops, ⟨hpc, hr⟩ | ⟨e, heq, -⟩⟩ := hact.ret_pc
  · exact ⟨a, below, ops, hst, hkey, hpc, hr⟩
  · cases heq

theorem Config.Returns.step {r : AccessResult V} (h : c.Returns S t q r) :
    ∃ c', Config.step S c (.step t) = some c' := by
  obtain ⟨a, below, w, hst, -, hact⟩ := h
  exact ⟨c.move t below (w, .ret r), by simp [Config.step, stepTask, hst, hact]⟩

theorem returns_of_actStep {a : Activation V} {below : List (Activation V)} {w : World V}
    {r : AccessResult V} (hst : (c.tasks t).stack = a :: below)
    (h : ActStep S c.world (c.tasks t).view t below a w (.ret r)) : c.Returns S t a.key r := by
  refine ⟨a, below, c.world, hst, rfl, ?_⟩
  cases h with
  | «return» hpc hr => simp [stepActivation, hpc, stepMicroOp, hr]
  | raise hpc => simp [stepActivation, hpc, stepMicroOp]

/-- An access at the end of its straight-line part does not go on in the same revision. -/
theorem ActStep.not_goto {w w' : World V} {view : ViewId} {below : List (Activation V)}
    {a a' : Activation V} {r : AccessResult V} {ops : List (MicroOp V)}
    (h : ActStep S w view t below a w' (.goto a')) (hpc : a.pc = .finishing (.checked r :: ops))
    (hr : w.rev view = a.rev) : False := by
  cases h with
  | restart _ hne => exact hne hr
  | overtaken hpc' => rcases hpc' with hpc' | hpc' <;> (rw [hpc] at hpc'; cases hpc')
  | unguarded hpc' hop _ =>
    rw [hpc] at hpc'
    cases hpc'
    rcases hop with ⟨st, hop⟩ | hop | hop <;> cases hop
  | top hpc' | listen hpc' | hit hpc' | stale hpc' | poison hpc' | retry hpc' | park hpc'
  | wake hpc' | accept hpc' | unregistered hpc' | touchInput hpc' | touchInterned hpc'
  | touchMissing hpc' | touchCycle hpc' | reverify hpc' | start hpc' | sharedMiss hpc'
  | sharedHit hpc' | sharedStale hpc' | follow hpc' | lead hpc' | followReset hpc'
  | followListen hpc' | followPark hpc' | followDone hpc' | followFailed hpc'
  | followCancelled hpc' | followWake hpc' | finalize hpc' | readInput hpc' | readInterned hpc'
  | readMissing hpc' | readCycle hpc' | updateDeps hpc' | setCell hpc' | notifyCell hpc'
  | putShared hpc' | setEntry hpc' | notifyEntry hpc' | unregister hpc' =>
    rw [hpc] at hpc'
    cases hpc'

/-- The accesses to `q` know `base`, if those of the task that took the step do. -/
theorem Config.TaskStep.acts {P : Activation V → Prop} (hstep : TaskStep S c t c')
    (h : ∀ t, ∀ a ∈ (c.tasks t).stack, P a) (hnew : ∀ a ∈ (c'.tasks t).stack, P a) :
    ∀ t, ∀ a ∈ (c'.tasks t).stack, P a := by
  intro t' a ha
  by_cases ht : t' = t
  · subst ht
    exact hnew a ha
  · rw [hstep.tasks_ne ht] at ha
    exact h t' a ha

/-- **A step of a task keeps what the cell of `q` holds**, or replaces it by a lawful result,
unless a computation fails in it. -/
theorem Keeps.taskStep (hc : OneView c) (h : Keeps c q base) (hstep : TaskStep S c t c')
    (hfail : ¬ c.Fails t q) : Held c' q base := by
  have hview := hc.native.views t hstep.same_access.1
  have hle : ∀ D, base = some D → D.2 ≤ c'.world.rev 0 := by
    rw [hstep.fixed.rev 0]
    exact h.le
  have hacts := hstep.acts h.acts
  have hold := h.acts t
  cases hstep with
  | @goto a a' below w hst ha =>
    rw [hst] at hold
    rw [hview] at ha
    -- the accesses below stay as they are
    have hnew : (a.key = q → a'.pc.Keeps base a'.rev) → ∀ b ∈ a' :: below, b.key = q →
        b.pc.Keeps base b.rev := by
      intro ha' b hb hkey
      rcases List.mem_cons.mp hb with rfl | hb
      · exact ha' (ha.key.symm.trans hkey)
      · exact hold b (List.mem_cons_of_mem _ hb) hkey
    by_cases hq : a.key = q
    · subst hq
      have hfail' : a.pc.failing = false := by
        cases hf : a.pc.failing with
        | false => rfl
        | true => exact absurd ⟨a, below, hst, rfl, hf⟩ hfail
      rcases ha.keeps h.world (hold a (List.mem_cons_self ..) rfl)
          (fun prev hpc => hc.alone.unfollowed hst hpc _) hfail' with ⟨hw', ha'⟩ | ⟨x, hx⟩
      · exact .kept ⟨hw', hle, hacts (by simpa [setTask] using hnew fun _ => ha')⟩
      · have hst' : ((({ c with world := w } : Config V).setTask t
            { c.tasks t with stack := a' :: below }).tasks t).stack = a' :: below := by
          simp [setTask]
        exact .stored hst' ha.key hx
    · obtain ⟨hstate, hshared⟩ := ha.keeps_other (Ne.symm hq)
      exact .kept ⟨h.world.of_eq hstate hshared, hle,
        hacts (by simpa [setTask] using hnew fun heq => absurd heq hq)⟩
  | @call a a' below w child hst ha =>
    rw [hst] at hold
    rw [hview] at ha
    obtain ⟨rfl, -, hkey, -⟩ := ha.call_pcOk .vacant
    have hnew : ∀ b ∈ .enter child :: a' :: below, b.key = q → b.pc.Keeps base b.rev := by
      intro b hb heq
      rcases List.mem_cons.mp hb with rfl | hb
      · trivial
      · rcases List.mem_cons.mp hb with rfl | hb
        · exact ha.call_keeps (hold a (List.mem_cons_self ..) (hkey.symm.trans heq))
        · exact hold b (List.mem_cons_of_mem _ hb) heq
    exact .kept ⟨h.world, hle, hacts (by simpa [setTask] using hnew)⟩
  | ret hst ha =>
    obtain rfl := ha.ret_world
    exact .kept ⟨h.world, hle, hacts (by simp [setTask])⟩
  | @resume a p p' below w w' r hst ha hp =>
    rw [hst] at hold
    rw [hview] at hp
    obtain rfl := ha.ret_world
    have hnew : ∀ b ∈ p' :: below, b.key = q → b.pc.Keeps base b.rev := by
      intro b hb heq
      rcases List.mem_cons.mp hb with rfl | hb
      · exact hp.keeps (hold p (by simp) (hp.key.symm.trans heq))
      · exact hold b (by simp [hb]) heq
    exact .kept ⟨h.world.of_same hp.same, hle, hacts (by simpa [setTask] using hnew)⟩

/-- An access returns what it has stored. -/
theorem Stored.ret {w w' : World V} {a : Activation V} {below : List (Activation V)}
    {x : V × Revision} {r : AccessResult V} (hx : Stored w q base a x)
    (h : ActStep S w 0 t below a w' (.ret r)) :
    r = .ok x ∧ ∀ F, w.shared (w.scope 0) q = some F → F.data = x := by
  obtain ⟨-, -, ops, hpc, hops⟩ := hx
  cases h with
  | «return» hpc' _ =>
    rw [hpc] at hpc'
    cases hpc'
    exact hops.resolve_left fun h => h.elim
  | raise hpc' =>
    rw [hpc] at hpc'
    cases hpc'
    rcases hops with h | h
    · exact h.elim
    · exact h.1.elim

/-- **The result that was stored is what the access returns**, and what the cell then holds. -/
theorem Stored.taskStep (hc : OneView c) {a : Activation V} {below : List (Activation V)}
    {x : V × Revision} (hst : (c.tasks t).stack = a :: below)
    (hx : Stored c.world a.key base a x) {t' : TaskId} (hstep : TaskStep S c t' c') :
    (∀ y, ¬ c.Returns S t' a.key (.ok y)) ∧ Held c' a.key base ∨
      c.Returns S t' a.key (.ok x) ∧ Lawful base (c.world.rev 0) x ∧ Keeps c' a.key (some x) := by
  obtain rfl := hc.single t t' (pending_of_stack hst) hstep.same_access.1
  have hview := hc.native.views t hstep.same_access.1
  obtain ⟨ops, hpc, -⟩ := hx.ops
  have hread : c.world.rev 0 = a.rev := by
    have h := hc.calm.fresh t a (by simp [hst])
    rw [hview] at h
    exact (h.resolve_left (by rw [hpc]; exact nofun)).symm
  have hnest := hc.nested t
  rw [hst] at hnest
  -- what is left on the stack has other keys
  have hends : ∀ {w : World V} {m : Config V} {r : AccessResult V}, ActStep S c.world 0 t below a w
      (.ret r) → c.world.Same m.world → TaskStep S c t m →
      (∀ b ∈ (m.tasks t).stack, b.key ≠ a.key) → Keeps m a.key (some x) := by
    intro w m r ha hsame hm hothers
    obtain ⟨R, hR, rfl⟩ := hx.ready
    obtain ⟨-, hF⟩ := hx.ret ha
    refine ⟨?_, fun D hD => ?_, ?_⟩
    · refine World.Keeps.of_same ⟨fun r hr => ?_, fun hv => ?_, fun e ver hp => ?_, ?_⟩ hsame
      · rw [hR] at hr
        cases hr
        rfl
      · rw [hR] at hv
        cases hv
      · rw [hR] at hp
        cases hp
      · rintro F hF' D ⟨⟩
        exact hF F hF'
    · obtain rfl := Option.some.inj hD
      rw [hsame.rev]
      have hn := hc.native.world.state a.key
      rw [hR] at hn
      exact hn.changedAt
    · intro t' b hb hkey
      by_cases ht : t' = t
      · subst ht
        exact absurd hkey (hothers b hb)
      · rw [hm.tasks_ne ht] at hb
        refine absurd (hc.single t' t (fun hnil => ?_) (pending_of_stack hst)) ht
        rw [hnil] at hb
        cases hb
  have hstep' := hstep
  cases hstep with
  | @goto _ a' _ w hst' ha =>
    rw [hst] at hst'
    cases hst'
    rw [hview] at ha
    refine .inl ⟨fun y hy => ?_, ?_⟩
    · obtain ⟨b, below', ops', hst', -, hpc', hr⟩ := returns_ok hy
      rw [hst] at hst'
      cases hst'
      exact ha.not_goto hpc' (hview ▸ hr)
    · have hst' : ((({ c with world := w } : Config V).setTask t
          { c.tasks t with stack := a' :: below }).tasks t).stack = a' :: below := by
        simp [setTask]
      exact .stored hst' ha.key (ha.delivers hx hread)
  | call hst' ha =>
    rw [hst] at hst'
    cases hst'
    cases ha with
    | touchCall hpc' _ _ | readCall hpc' _ _ =>
      rw [hpc] at hpc'
      cases hpc'
  | ret hst' ha =>
    rw [hst] at hst'
    cases hst'
    rw [hview] at ha
    obtain ⟨rfl, -⟩ := hx.ret ha
    obtain rfl := ha.ret_world
    refine .inr ⟨returns_of_actStep hst (hview ▸ ha), hread ▸ hx.lawful, ?_⟩
    exact hends ha (.refl _) hstep' (by simp [setTask])
  | @resume _ p p' below' w w' r hst' ha hp =>
    rw [hst] at hst'
    cases hst'
    rw [hview] at ha
    obtain ⟨rfl, -⟩ := hx.ret ha
    obtain rfl := ha.ret_world
    refine .inr ⟨returns_of_actStep hst (hview ▸ ha), hread ▸ hx.lawful, ?_⟩
    refine hends ha hp.same hstep' ?_
    have hothers : ∀ b ∈ p' :: below', b.key ≠ a.key := by
      intro b hb hkey
      refine hnest.1 ?_
      rcases List.mem_cons.mp hb with rfl | hb
      · exact List.mem_map.mpr ⟨p, by simp, hp.key.symm.trans hkey⟩
      · exact List.mem_map.mpr ⟨b, by simp [hb], hkey⟩
    simpa [setTask] using hothers

/-- A computation of `q` has failed, and its cell is about to be poisoned. -/
def Failed (c : Config V) (q : DynKey) : Prop :=
  ∃ t a below e ver ops, (c.tasks t).stack = a :: below ∧ a.key = q ∧
    a.pc = .finishing (.setCell (.poisoned e ver) :: ops) ∧ OpsKeep none a.rev ops

theorem failed_of_fails (hfail : c.Fails t q) (hs : step S c (.step t) = some c') :
    Failed c' q := by
  obtain ⟨a, below, hst, hkey, hpc⟩ := hfail
  unfold Pc.failing at hpc
  split at hpc
  · next prev e deps hpc' =>
    have hmove : c' = c.move t below (c.world, .goto (a.moveTo (.finishing
        (finalizeOps (c.tasks t).view a.rev prev deps (.error e))))) := by
      simpa [Config.step, stepTask, hst, stepActivation, hpc'] using hs.symm
    subst hmove
    exact ⟨t, a.moveTo (.finishing (finalizeOps (c.tasks t).view a.rev prev deps (.error e))),
      below, e, a.rev, _, by simp [move, setTask], hkey, rfl, trivial⟩
  · cases hpc

/-- Poisoning the cell, a failed computation leaves nothing there. -/
theorem Failed.taskStep (hc : OneView c) (h : Failed c q) {t' : TaskId}
    (hs : step S c (.step t') = some c') : Keeps c' q none := by
  obtain ⟨t, a, below, e, ver, ops, hst, rfl, hpc, hops⟩ := h
  have hpend := (taskStep_of_step hs).same_access.1
  obtain rfl := hc.single t t' (pending_of_stack hst) hpend
  have hview := hc.native.views t hpend
  have hnest := hc.nested t
  rw [hst] at hnest
  have hmove : c' = c.move t below (c.world.setCell 0 a.key (.poisoned e ver),
      .goto (a.moveTo (.finishing ops))) := by
    simpa [Config.step, stepTask, hst, stepActivation, hpc, stepMicroOp, hview] using hs.symm
  subst hmove
  refine ⟨⟨fun r hr => ?_, fun _ => rfl, fun _ _ _ => rfl, fun _ _ _ h => by cases h⟩,
    fun _ h => (by cases h), ?_⟩
  · have hr' : (c.world.setCell 0 a.key (.poisoned e ver)).state 0 a.key = .ready r := hr
    rw [World.state_setCell_self] at hr'
    cases hr'
  · intro t' b hb hkey
    by_cases ht : t' = t
    · subst ht
      have hb' : b ∈ a.moveTo (.finishing ops) :: below := by simpa [move, setTask] using hb
      rcases List.mem_cons.mp hb' with rfl | hb'
      · exact hops
      · exact absurd (hkey ▸ List.mem_map_of_mem hb') hnest.1
    · have hb' : b ∈ (c.tasks t').stack := by
        simpa [move, setTask, Function.update_of_ne ht] using hb
      refine absurd (hc.single t' t (fun hnil => ?_) hpend) ht
      rw [hnil] at hb'
      cases hb'

/-- An operation between two accesses keeps what the cells hold. -/
theorem Keeps.operation {l : Label V} (hc : OneView c) (h : Keeps c q base)
    (hs : step S c l = some c') (hidle : c.Idle) (hop : l.isOperation) (hl : l.OnDatabase) :
    Keeps c' q base := by
  have hkept := World.Kept.of_operation hs hop hl hc.live hc.views
  refine ⟨h.world.of_eq (hkept.state q) (by rw [hkept.shared, hkept.scope]),
    fun D hD => Nat.le_trans (h.le D hD) hkept.rev, ?_⟩
  -- a new access knows nothing yet, and there is no other
  intro t a ha _
  have htop : a.pc = .top := by
    cases l with
    | spawn view key want =>
      obtain ⟨htask, -, hothers⟩ := spawned_alone hs hidle
      by_cases ht : t = c.taskCount
      · subst ht
        rw [htask] at ha
        rw [List.mem_singleton.mp ha]
        rfl
      · rw [not_not.mp (hothers t ht)] at ha
        cases ha
    | mutate view key value =>
      simp only [Config.step] at hs
      split at hs <;> cases hs
      exact absurd (fun hnil => by rw [hnil] at ha; cases ha) (hidle t)
    | intern kind value =>
      cases hs
      exact absurd (fun hnil => by rw [hnil] at ha; cases ha) (hidle t)
    | bump view =>
      simp only [Config.step] at hs
      split at hs <;> cases hs
      exact absurd (fun hnil => by rw [hnil] at ha; cases ha) (hidle t)
    | snapshot =>
      cases hs
      exact absurd (fun hnil => by rw [hnil] at ha; cases ha) (hidle t)
    | step t | drop t | «begin» view key value | advance m => cases hop
  rw [htop]
  trivial

/-- A step of the run returns a value from an access to `q`. -/
def Delivered (S : Schema V) (q : DynKey) (c : Config V) (l : Label V) : Prop :=
  ∃ t x, l = .step t ∧ c.Returns S t q (.ok x)

/-- A step of the run ends a computation of `q` with an error. -/
def FailedCompute (q : DynKey) (c : Config V) (l : Label V) : Prop :=
  ∃ t, l = .step t ∧ c.Fails t q

/-- **Between two successful accesses the cell holds what the first one returned**, or has what
the second one is about to return. -/
theorem Held.step {l : Label V} (hc : OneView c) (h : Held c q base)
    (hs : step S c l = some c') (hl : SequentialIn Label.OnDatabase c l c')
    (hret : ¬ Delivered S q c l) (hfail : ¬ FailedCompute q c l) : Held c' q base := by
  rcases hl with ⟨t, rfl⟩ | ⟨hidle, hop, hon⟩
  · have hstep := taskStep_of_step hs
    cases h with
    | kept h => exact h.taskStep hc hstep fun hf => hfail ⟨t, rfl, hf⟩
    | stored hst hkey hx =>
      subst hkey
      rcases hx.taskStep hc hst hstep with ⟨-, h⟩ | ⟨hr, -⟩
      · exact h
      · exact absurd ⟨t, _, rfl, hr⟩ hret
  · cases h with
    | kept h => exact .kept (h.operation hc hs hidle hop hon)
    | stored hst _ _ => exact absurd (pending_of_stack hst) (hidle _)

/-- **What a successful access returns is lawful**, and is what the cell holds from then on. -/
theorem Held.returns {x : V × Revision} (hc : OneView c) (h : Held c q base)
    (hret : c.Returns S t q (.ok x)) (hs : Config.step S c (.step t) = some c') :
    Lawful base (c.world.rev 0) x ∧ x.2 ≤ c.world.rev 0 ∧ Held c' q (some x) := by
  have hstep := taskStep_of_step hs
  obtain ⟨a, below, ops, hst, hkey, hpc, -⟩ := returns_ok hret
  cases h with
  | kept h =>
    have ha := h.acts t a (by simp [hst]) hkey
    rw [hpc] at ha
    obtain rfl : base = some x := ha
    refine ⟨lawful_same, h.le x rfl, h.taskStep hc hstep ?_⟩
    rintro ⟨b, below', hst', -, hb⟩
    rw [hst] at hst'
    cases hst'
    rw [hpc] at hb
    cases hb
  | @stored t₀ a₀ below₀ y hst₀ hkey₀ hy =>
    subst hkey₀
    obtain rfl := hc.single t₀ t (pending_of_stack hst₀) (pending_of_stack hst)
    rcases hy.taskStep hc hst₀ hstep with ⟨hno, -⟩ | ⟨-, hlaw, hk⟩
    · exact absurd hret (hno x)
    · rw [hst] at hst₀
      cases hst₀
      obtain ⟨-, -, ops', hpc', hops⟩ := hy
      rw [hpc] at hpc'
      cases hpc'
      obtain rfl : x = y := by
        rcases hops with hops | hops
        · exact hops.elim
        · exact Except.ok.inj hops.1
      refine ⟨hlaw, ?_, .kept hk⟩
      have hle := hk.le x rfl
      rwa [hstep.fixed.rev] at hle

/-- **Whatever happened to a key before**, its cell holds something, or is about to be
poisoned. -/
theorem held_run {ls : List (Label V)}
    (hrun : Trans.Steps (Config.step S) (SequentialIn Label.OnDatabase) init ls c) (q : DynKey) :
    OneView c ∧ ((∃ base, Held c q base) ∨ Failed c q) := by
  refine hrun.invariant (I := fun c => OneView c ∧ ((∃ base, Held c q base) ∨ Failed c q))
    ⟨oneView_init, .inl ⟨none, .kept (keeps_init q)⟩⟩ ?_
  rintro m l m' ⟨hm, h⟩ hs hl
  refine ⟨hm.step hs hl, ?_⟩
  rcases h with ⟨base, h⟩ | h
  · by_cases hret : Delivered S q m l
    · obtain ⟨t, x, rfl, hret⟩ := hret
      exact .inl ⟨some x, (h.returns hm hret hs).2.2⟩
    by_cases hfail : FailedCompute q m l
    · obtain ⟨t, rfl, hfail⟩ := hfail
      exact .inr (failed_of_fails hfail hs)
    · exact .inl ⟨base, h.step hm hs hl hret hfail⟩
  · rcases hl with ⟨t, rfl⟩ | ⟨hidle, -⟩
    · exact .inl ⟨none, .kept (h.taskStep hm hs)⟩
    · obtain ⟨t, a, below, -, -, -, hst, -⟩ := h
      exact absurd (pending_of_stack hst) (hidle t)

/-- No sequential step moves the database to an earlier revision. -/
theorem OneView.rev_le {l : Label V} (hc : OneView c) (hs : Config.step S c l = some c')
    (hl : SequentialIn Label.OnDatabase c l c') : c.world.rev 0 ≤ c'.world.rev 0 := by
  rcases hl with ⟨t, rfl⟩ | ⟨-, hop, hon⟩
  · exact Nat.le_of_eq ((taskStep_of_step hs).fixed.rev 0).symm
  · exact (World.Kept.of_operation hs hop hon hc.live hc.views).rev

/-- A step between two consecutive successful accesses to `q`, with no failed computation of
`q`. -/
def Between (S : Schema V) (q : DynKey) (c : Config V) (l : Label V) (c' : Config V) : Prop :=
  SequentialIn Label.OnDatabase c l c' ∧ ¬ Delivered S q c l ∧ ¬ FailedCompute q c l

/-- **The early cutoff law.**  In a sequential run on the database, of two consecutive
successful accesses to `q` (of the caller or of other queries) with no failed computation of `q`
between them, the later one reports the same `changed_at` if the values are equal, and its own
revision otherwise; `changed_at` never decreases and is never beyond the current revision. -/
theorem early_cutoff_law {ls₁ ls₂ : List (Label V)} {c₁ c₁' c₂ : Config V} {t₁ t₂ : TaskId}
    {q : DynKey} {v₁ v₂ : V} {ch₁ ch₂ : Revision}
    (hrun : Trans.Steps (Config.step S) (SequentialIn Label.OnDatabase) init ls₁ c₁)
    (hret₁ : c₁.Returns S t₁ q (.ok (v₁, ch₁))) (hs : Config.step S c₁ (.step t₁) = some c₁')
    (hbetween : Trans.Steps (Config.step S) (Between S q) c₁' ls₂ c₂)
    (hret₂ : c₂.Returns S t₂ q (.ok (v₂, ch₂))) :
    ch₁ ≤ ch₂ ∧ ch₂ ≤ c₂.world.rev 0 ∧ (v₂ = v₁ → ch₂ = ch₁) ∧
      (v₂ ≠ v₁ → ch₂ = c₂.world.rev 0) := by
  obtain ⟨hc₁, h₁⟩ := held_run hrun q
  obtain ⟨hle₁, hheld⟩ : ch₁ ≤ c₁.world.rev 0 ∧ Held c₁' q (some (v₁, ch₁)) := by
    rcases h₁ with ⟨base, h₁⟩ | h₁
    · exact (h₁.returns hc₁ hret₁ hs).2
    · -- where a computation fails nothing is returned
      obtain ⟨t, a, below, e, ver, ops, hst, -, hpc, -⟩ := h₁
      obtain ⟨a', below', ops', hst', -, hpc', -⟩ := returns_ok hret₁
      obtain rfl := hc₁.single t t₁ (pending_of_stack hst) (pending_of_stack hst')
      rw [hst] at hst'
      cases hst'
      rw [hpc] at hpc'
      cases hpc'
  have hc₁' := hc₁.step hs (.inl ⟨t₁, rfl⟩)
  have hinv := hbetween.invariant (I := fun c => OneView c ∧ Held c q (some (v₁, ch₁)) ∧
      c₁.world.rev 0 ≤ c.world.rev 0)
    ⟨hc₁', hheld, Nat.le_of_eq ((taskStep_of_step hs).fixed.rev 0).symm⟩
    fun m l m' ⟨hm, h, hle⟩ hl ⟨hseq, hret, hfail⟩ =>
      ⟨hm.step hl hseq, h.step hm hl hseq hret hfail, Nat.le_trans hle (hm.rev_le hl hseq)⟩
  obtain ⟨hc₂, hheld₂, hle⟩ := hinv
  have hlaw : Lawful (some (v₁, ch₁)) (c₂.world.rev 0) (v₂, ch₂) := by
    obtain ⟨c₂', hs₂⟩ := hret₂.step
    exact (hheld₂.returns hc₂ hret₂ hs₂).1
  rcases hlaw _ rfl with heq | ⟨hne, heq⟩
  · cases heq
    exact ⟨Nat.le_refl _, Nat.le_trans hle₁ hle, fun _ => rfl, fun hne => absurd rfl hne⟩
  · obtain rfl : ch₂ = c₂.world.rev 0 := heq
    exact ⟨Nat.le_trans hle₁ hle, Nat.le_refl _, fun heq => absurd heq hne, fun _ => rfl⟩

end runs

/-! ## 4. An example -/

/-- The label is a step of a task, or an operation on the database while no task is running. -/
def Label.inSequence (c : Config V) : Label V → Bool
  | .step _ => true
  | .spawn view _ _ | .mutate view _ _ =>
    view == 0 && (List.range c.taskCount).all fun t => (c.tasks t).stack.isEmpty
  | _ => false

/-- No task is running. -/
def Config.quiet (c : Config V) : Bool :=
  (List.range c.taskCount).all fun t => (c.tasks t).stack.isEmpty

theorem Led.idle {c : Config V} (hc : Led c) (h : c.quiet) : c.Idle := by
  intro t
  have hnil : (c.tasks t).stack = [] := by
    by_cases ht : t < c.taskCount
    · simpa using List.all_eq_true.mp h t (List.mem_range.mpr ht)
    · exact hc.unused t (Nat.le_of_not_lt ht)
  exact fun hp => hp hnil

theorem sequential_of_inSequence {c c' : Config V} {l : Label V} (hc : Led c)
    (h : l.inSequence c) : SequentialIn Label.OnDatabase c l c' := by
  cases l with
  | step t => exact .inl ⟨t, rfl⟩
  | spawn view key want | mutate view key value =>
    obtain ⟨hview, hquiet⟩ := Bool.and_eq_true_iff.mp h
    exact .inr ⟨hc.idle hquiet, rfl, beq_iff_eq.mp hview⟩
  | drop t | «begin» view key value | advance n | intern kind value | bump view | snapshot =>
    cases h

/-- The value that the step of task `t` returns, with the key of the access. -/
def Config.returning [DecidableEq V] (S : Schema V) (c : Config V) (t : TaskId) :
    Option (DynKey × V × Revision) :=
  match (c.tasks t).stack with
  | [] => none
  | a :: below =>
    match stepActivation S c.world (c.tasks t).view t below a with
    | some (_, .ret (.ok x)) => some (a.key, x)
    | _ => none

theorem returns_of_returning [DecidableEq V] {S : Schema V} {c : Config V} {t : TaskId}
    {q : DynKey} {x : V × Revision} (h : c.returning S t = some (q, x)) :
    c.Returns S t q (.ok x) := by
  unfold Config.returning at h
  split at h
  · cases h
  · next a below hst =>
    split at h
    · next w y hact =>
      cases h
      exact ⟨a, below, w, hst, rfl, hact⟩
    · cases h

namespace Cutoff

open Cancellation (x)

/-- `parity` is `x` modulo 2. -/
def parity : DynKey := ⟨1, []⟩

def body (_ : DynKey) : Query Nat :=
  .read x fun
    | .ok (some v) => .done (.ok (v % 2))
    | _ => .done (.ok 0)

def schema : Schema Nat := { Cancellation.schema with compute := fun _ => body }

/-- `parity` is computed for 1, up to the step that returns it. -/
def first : List (Label Nat) :=
  [.mutate 0 x (some 1), .spawn 0 parity true] ++ List.replicate 15 (.step 0)

/-- `x` becomes 2, and `parity` is accessed again, up to the step that returns it. -/
def second : List (Label Nat) :=
  [.mutate 0 x (some 2), .spawn 0 parity true] ++ List.replicate 17 (.step 1)

/-- The step neither returns a value nor ends a computation with an error. -/
def midway (c : Config Nat) : Label Nat → Bool
  | .step t =>
    match (c.tasks t).stack with
    | [] => true
    | a :: _ => (c.returning schema t).isNone && !a.pc.failing
  | _ => true

theorem between_of_midway {c c' : Config Nat} {l : Label Nat} (hc : Led c)
    (h : l.inSequence c && midway c l) : Between schema parity c l c' := by
  obtain ⟨hl, hmid⟩ := Bool.and_eq_true_iff.mp h
  refine ⟨sequential_of_inSequence hc hl, ?_, ?_⟩
  · rintro ⟨t, y, rfl, a, below, w, hst, -, hact⟩
    simp [midway, returning, hst, hact] at hmid
  · rintro ⟨t, rfl, a, below, hst, -, hpc⟩
    simp [midway, hst, hpc] at hmid

end Cutoff

open Cutoff in
/-- `parity` is 1 at revision 1, and 0 at revision 2: the second access reports its own
revision. -/
theorem parity_changes_at_two :
    ∃ c₁ c₁' c₂, Trans.run (step schema) init first = some c₁ ∧
      step schema c₁ (.step 0) = some c₁' ∧ Trans.run (step schema) c₁' second = some c₂ ∧
      c₁.Returns schema 0 parity (.ok (1, 1)) ∧ c₂.Returns schema 1 parity (.ok (0, 2)) ∧
      1 ≤ 2 ∧ 2 ≤ c₂.world.rev 0 ∧ (0 = 1 → 2 = 1) ∧ (0 ≠ 1 → 2 = c₂.world.rev 0) := by
  have hrun : (Trans.run (fun c l => if l.inSequence c then step schema c l else none) init
      first).any (fun c₁ => c₁.returning schema 0 = some (parity, 1, 1) ∧
        (step schema c₁ (.step 0)).any fun c₁' =>
          (Trans.run (fun c l => if l.inSequence c && midway c l then step schema c l else none)
            c₁' second).any fun c₂ => c₂.returning schema 1 = some (parity, 0, 2)) := by
    decide +kernel
  obtain ⟨c₁, h₁, hrun⟩ := (Option.any_eq_true ..).mp hrun
  obtain ⟨hret₁, hrun⟩ := of_decide_eq_true hrun
  obtain ⟨c₁', hs, hrun⟩ := (Option.any_eq_true ..).mp hrun
  obtain ⟨c₂, h₂, hret₂⟩ := (Option.any_eq_true ..).mp hrun
  have hret₁ := returns_of_returning hret₁
  have hret₂ := returns_of_returning (of_decide_eq_true hret₂)
  obtain ⟨hsteps₁, hled⟩ := (Trans.Steps.of_checked_run _ h₁).strengthen (led_init (V := Nat))
    fun _ _ _ hm hl hok => ⟨led_step hm hl, sequential_of_inSequence hm hok.2⟩
  obtain ⟨hsteps₂, -⟩ := (Trans.Steps.of_checked_run _ h₂).strengthen (led_step hled hs)
    fun _ _ _ hm hl hok => ⟨led_step hm hl, between_of_midway hm hok.2⟩
  exact ⟨c₁, c₁', c₂, hsteps₁.run, hs, hsteps₂.run, hret₁, hret₂,
    early_cutoff_law hsteps₁ hret₁ hs hsteps₂ hret₂⟩

end Picante

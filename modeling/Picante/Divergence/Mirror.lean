/-
# A diverged snapshot as a database of its own

A snapshot with a scope of its own computes as a database would that was created with its slots
and its cells: nobody else looks where it stores, and nothing reaches it from elsewhere.  The
mirror of a state is that database: its view 0 holds what the snapshot holds, with every record
its own (`own` clears the marks of who computed what), its tasks are the accesses on the snapshot,
and its registry, its graph and its log go their own ways.

* `ActStep.mirrored` -- a step of an access on the snapshot is one of the mirrored access, case by
  case; the sole exception, an access that follows another, is left out.
* `Config.TaskStep.mirrored` -- so is a step of a task.
-/
import Picante.Divergence.Scopes

namespace Picante

open Config

variable {V : Type}

/-! ## 1. Records of one's own -/

/-- The record, as the database's own. -/
def SharedCacheRecord.own (F : SharedCacheRecord V) : SharedCacheRecord V :=
  { F with foreign := false }

/-- The record, as the database's own. -/
def ReadyRecord.own (R : ReadyRecord V) : ReadyRecord V := { R with foreign := false }

/-- The state, with a record of the database's own if it is ready. -/
def ErasedState.own : ErasedState V → ErasedState V
  | .ready R => .ready R.own
  | st => st

/-- The cell, with a record of the database's own if it is ready. -/
def ErasedCell.own (c : ErasedCell V) : ErasedCell V := ⟨c.state.own, c.epoch⟩

/-- What is revalidated, as the database's own. -/
def Source.own : Source V → Source V
  | .cell deps changedAt _ => .cell deps changedAt false
  | .shared F prev => .shared F.own prev

/-- The operation, storing a record of the database's own. -/
def MicroOp.own : MicroOp V → MicroOp V
  | .setCell st => .setCell st.own
  | .putShared F => .putShared F.own
  | op => op

/-- Where the activation is, dealing with records of the database's own. -/
def Pc.own : Pc V → Pc V
  | .revalidate src rest => .revalidate src.own rest
  | .touching src dep rest => .touching src.own dep rest
  | .finishing ops => .finishing (ops.map MicroOp.own)
  | pc => pc

/-- Is following another access, or about to. -/
def Pc.joins : Pc V → Bool
  | .followReset _ => true
  | pc => pc.follows

@[simp] theorem Source.deps_own (src : Source V) : src.own.deps = src.deps := by
  cases src <;> rfl

@[simp] theorem Source.changedAt_own (src : Source V) : src.own.changedAt = src.changedAt := by
  cases src <;> rfl

theorem own_adoptOps (view : ViewId) (rev : Revision) (F : SharedCacheRecord V) :
    (adoptOps view rev F).map MicroOp.own = adoptOps 0 rev F.own := rfl

theorem own_finalizeOps [DecidableEq V] (view : ViewId) (rev : Revision) (prev : Previous V)
    (deps : List Dep) (out : PicanteResult V) :
    (finalizeOps view rev prev deps out).map MicroOp.own = finalizeOps 0 rev prev deps out := by
  cases out <;> rfl

theorem own_afterRevalidation (view : ViewId) (rev : Revision) (src : Source V) (b : Bool) :
    (afterRevalidation view rev src b).own = afterRevalidation 0 rev src.own b := by
  cases src <;> cases b <;> rfl

theorem joins_afterRevalidation (view : ViewId) (rev : Revision) (src : Source V) (b : Bool) :
    (afterRevalidation view rev src b).joins = false := by
  cases src <;> cases b <;> rfl

/-! ## 2. The world of the mirror -/

/-- View 0 of `m` holds what view `s` of `w` does, as its own. -/
structure World.Copies (s : ViewId) (w m : World V) : Prop where
  rev : m.rev 0 = w.rev s
  inputs : m.inputs 0 = w.inputs s
  cell : ∀ k, m.cell 0 k = (w.cell s k).own
  interned : m.interned = w.interned
  missing : ∀ i k, Event.missing i k ∈ m.log → Event.missing s k ∈ w.log

/-- The same, and what is stored under the scope of the view is stored there as well. -/
structure World.Mirrors (s : ViewId) (w m : World V) : Prop extends World.Copies s w m where
  shared : ∀ k, m.shared (m.scope 0) k = (w.shared (w.scope s) k).map SharedCacheRecord.own

/-- The activation `b` mirrors `a`, which follows nobody. -/
structure Activation.Mirrors (a b : Activation V) : Prop where
  key : b.key = a.key
  rev : b.rev = a.rev
  guard : b.guard.isSome = a.guard.isSome
  pc : b.pc = a.pc.own
  alone : a.pc.joins = false

/-- The moves are those of mirrored activations. -/
inductive Move.Mirrors : Move V → Move V → Prop
  | goto {a b : Activation V} (h : a.Mirrors b) : Mirrors (.goto a) (.goto b)
  | call {a b : Activation V} {child : DynKey} (h : a.Mirrors b) :
      Mirrors (.call a child) (.call b child)
  | ret {r : AccessResult V} : Mirrors (.ret r) (.ret r)

section worlds

variable {s : ViewId} {w w' m m' : World V} {k : DynKey}

namespace World.Copies

theorem state (h : w.Copies s m) (k : DynKey) : m.state 0 k = (w.state s k).own := by
  unfold World.state
  rw [h.cell]
  rfl

theorem epoch (h : w.Copies s m) (k : DynKey) : (m.cell 0 k).epoch = (w.cell s k).epoch := by
  rw [h.cell]
  rfl

theorem internedAt (h : w.Copies s m) (S : Schema V) (k : DynKey) :
    m.internedAt S k = w.internedAt S k := by
  simp only [World.internedAt, h.interned]

/-- The view sees no difference, and so its copy need not change. -/
theorem same (h : w.Copies s m) (hs : w.SameAt s w') (hgrow : w.Grows w') : w'.Copies s m where
  rev := h.rev.trans hs.rev.symm
  inputs := h.inputs.trans hs.inputs.symm
  cell k := by
    rw [hs.cell]
    exact h.cell k
  interned := h.interned.trans hs.interned.symm
  missing i k hk := hgrow.mem (h.missing i k hk)

theorem logged (h : w.Copies s m) {e e' : Event}
    (he : ∀ i k, e' = .missing i k → e = .missing s k) : (w.logged e).Copies s (m.logged e') where
  rev := h.rev
  inputs := h.inputs
  cell := h.cell
  interned := h.interned
  missing i k hk := by
    rcases List.mem_cons.mp hk with heq | hk
    · rw [he i k heq.symm]
      exact List.mem_cons_self ..
    · exact List.mem_cons_of_mem _ (h.missing i k hk)

theorem setCell (h : w.Copies s m) (k : DynKey) (st : ErasedState V) :
    (w.setCell s k st).Copies s (m.setCell 0 k st.own) where
  rev := by rw [rev_setCell, rev_setCell, h.rev]
  inputs := by rw [inputs_setCell, inputs_setCell, h.inputs]
  cell k' := by
    by_cases hk : k' = k
    · subst hk
      have hepoch := h.epoch k'
      unfold World.cell at hepoch
      simp [World.setCell, modifyView, World.cell, ErasedCell.own, hepoch]
    · rw [cell_setCell_of_ne _ _ _ _ _ _ (fun hne => hk hne.2),
        cell_setCell_of_ne _ _ _ _ _ _ (fun hne => hk hne.2), h.cell]
  interned := h.interned
  missing := h.missing

theorem notifyCell (h : w.Copies s m) (k : DynKey) :
    (w.notifyCell s k).Copies s (m.notifyCell 0 k) where
  rev := by rw [rev_notifyCell, rev_notifyCell, h.rev]
  inputs := by rw [inputs_notifyCell, inputs_notifyCell, h.inputs]
  cell k' := by
    by_cases hk : k' = k
    · subst hk
      have hcell := h.cell k'
      unfold World.cell at hcell
      simp [World.notifyCell, modifyView, World.cell, hcell, ErasedCell.own]
    · rw [cell_notifyCell_of_ne _ _ _ _ _ (fun hne => hk hne.2),
        cell_notifyCell_of_ne _ _ _ _ _ (fun hne => hk hne.2), h.cell]
  interned := h.interned
  missing := h.missing

/-- The runtimes change, and are at one revision still. -/
theorem modifyRuntime (h : w.Copies s m) {f g : Runtime → Runtime}
    (hrev : (g (m.views 0).runtime).currentRevision = (f (w.views s).runtime).currentRevision) :
    (w.modifyRuntime s f).Copies s (m.modifyRuntime 0 g) where
  rev := by
    rw [rev_modifyRuntime, rev_modifyRuntime, if_pos rfl, if_pos rfl]
    exact hrev
  inputs := by rw [inputs_modifyRuntime, inputs_modifyRuntime, h.inputs]
  cell k := by
    rw [cell_modifyRuntime, cell_modifyRuntime]
    exact h.cell k
  interned := h.interned
  missing := h.missing

theorem bump (h : w.Copies s m) :
    (w.modifyRuntime s (·.bumpRevision)).Copies s (m.modifyRuntime 0 (·.bumpRevision)) :=
  h.modifyRuntime (congrArg (· + 1) h.rev)

theorem mutate [DecidableEq V] (h : w.Copies s m) (k : DynKey) (value : Option V) :
    (mutateWorld w s k value).Copies s (mutateWorld m 0 k value) := by
  unfold mutateWorld
  rw [h.inputs]
  split
  · exact h
  · have hbump := h.bump
    refine ⟨?_, ?_, fun k' => ?_, h.interned, h.missing⟩
    · simp only [rev_storeInput, rev_markDivergent]
      exact hbump.rev
    · simp only [inputs_storeInput, if_pos, inputs_markDivergent]
      rw [hbump.inputs, hbump.rev]
    · simp only [cell_storeInput, cell_markDivergent]
      exact hbump.cell k'

theorem intern [DecidableEq V] (h : w.Copies s m) (kind : QueryKindId) (value : V) :
    (w.intern kind value).Copies s (m.intern kind value) where
  rev := h.rev
  inputs := h.inputs
  cell := h.cell
  interned := by simp only [World.intern, h.interned]
  missing := h.missing

end World.Copies

namespace World.Mirrors

/-- Nothing is stored, and no scope changes. -/
theorem of_copies (h : w.Mirrors s m) (hc : w'.Copies s m')
    (hscope : w'.scope s = w.scope s) (hscope' : m'.scope 0 = m.scope 0)
    (hshared : w'.shared = w.shared) (hshared' : m'.shared = m.shared) : w'.Mirrors s m' where
  toCopies := hc
  shared k := by
    rw [hscope, hscope', hshared, hshared']
    exact h.shared k

theorem same (h : w.Mirrors s m) (hs : w.SameAt s w') (hgrow : w.Grows w') : w'.Mirrors s m where
  toCopies := h.toCopies.same hs hgrow
  shared k := by
    rw [hs.scope, hs.shared]
    exact h.shared k

theorem logged (h : w.Mirrors s m) {e e' : Event}
    (he : ∀ i k, e' = .missing i k → e = .missing s k) : (w.logged e).Mirrors s (m.logged e') :=
  h.of_copies (h.toCopies.logged he) rfl rfl rfl rfl

theorem setCell (h : w.Mirrors s m) (k : DynKey) (st : ErasedState V) :
    (w.setCell s k st).Mirrors s (m.setCell 0 k st.own) :=
  h.of_copies (h.toCopies.setCell k st) (scope_setCell ..) (scope_setCell ..) rfl rfl

theorem notifyCell (h : w.Mirrors s m) (k : DynKey) :
    (w.notifyCell s k).Mirrors s (m.notifyCell 0 k) :=
  h.of_copies (h.toCopies.notifyCell k) (scope_notifyCell ..) (scope_notifyCell ..) rfl rfl

theorem updateQueryDeps (h : w.Mirrors s m) (q : DynKey) (deps : List Dep) :
    (w.modifyRuntime s (·.updateQueryDeps q deps)).Mirrors s
      (m.modifyRuntime 0 (·.updateQueryDeps q deps)) :=
  h.of_copies (h.toCopies.modifyRuntime h.rev) (scope_updateQueryDeps ..)
    (scope_updateQueryDeps ..) rfl rfl

/-- The counters and the registries change. -/
theorem counted (h : w.Mirrors s m) (n n' l l' : Nat) (R R' : Registry V) :
    World.Mirrors s { w with calls := n, lookups := l, registry := R }
      { m with calls := n', lookups := l', registry := R' } :=
  h.of_copies ⟨h.rev, h.inputs, h.cell, h.interned, h.missing⟩ rfl rfl rfl rfl

/-- The record of one key changes, in both caches. -/
theorem stored (h : w.Mirrors s m) (k : DynKey) (F : Option (SharedCacheRecord V))
    (hc : w'.Copies s m') (hscope : w'.scope s = w.scope s) (hscope' : m'.scope 0 = m.scope 0)
    (hshared : ∀ k', w'.shared (w.scope s) k' = if k' = k then F else w.shared (w.scope s) k')
    (hshared' : ∀ k', m'.shared (m.scope 0) k' =
      if k' = k then F.map SharedCacheRecord.own else m.shared (m.scope 0) k') :
    w'.Mirrors s m' where
  toCopies := hc
  shared k' := by
    rw [hscope, hscope', hshared, hshared']
    split
    · rfl
    · exact h.shared k'

theorem putShared (h : w.Mirrors s m) (k : DynKey) (F : SharedCacheRecord V) :
    (w.putShared (w.scope s) k F).Mirrors s (m.putShared (m.scope 0) k F.own) := by
  refine h.stored k (some F) ⟨h.rev, h.inputs, h.cell, h.interned, h.missing⟩ rfl rfl
    (fun k' => ?_) fun k' => ?_
  · simp [shared_putShared]
  · simp [shared_putShared]

theorem evictShared (h : w.Mirrors s m) (k : DynKey) :
    (w.evictShared (w.scope s) k).Mirrors s (m.evictShared (m.scope 0) k) := by
  refine h.stored k none ⟨h.rev, h.inputs, h.cell, h.interned, h.missing⟩ rfl rfl
    (fun k' => ?_) fun k' => ?_
  · simp [shared_evictShared]
  · simp [shared_evictShared]

end World.Mirrors

end worlds

/-! ## 3. A step of an access -/

section steps

variable {S : Schema V} {s : ViewId} {task : TaskId} {w w' m : World V}
  {below below' : List (Activation V)} {a a' b : Activation V} {mv : Move V}

theorem Activation.Mirrors.pc_eq (h : a.Mirrors b) {pc : Pc V} (hpc : a.pc = pc) :
    b.pc = pc.own := h.pc.trans (congrArg Pc.own hpc)

theorem Activation.Mirrors.moveTo (h : a.Mirrors b) {pc pc' : Pc V} (halone : pc.joins = false)
    (hpc : pc' = pc.own) : (a.moveTo pc).Mirrors (b.moveTo pc') :=
  ⟨h.key, h.rev, h.guard, hpc, halone⟩

theorem keys_mirrors (h : List.Forall₂ Activation.Mirrors below below') :
    below'.map (·.key) = below.map (·.key) := by
  induction h with
  | nil => rfl
  | cons h _ ih => rw [List.map_cons, List.map_cons, h.key, ih]

/-- A call that has not started yet. -/
theorem mirrors_enter (k : DynKey) : (Activation.enter k : Activation V).Mirrors (.enter k) :=
  ⟨rfl, rfl, rfl, rfl, rfl⟩

/-- **The end of a touch**, mirrored. -/
theorem Touched.mirrored {src : Source V} {rest : List Dep} {r : PicanteResult Revision}
    (h : Touched w s a src rest r w' a') (hw : w.Mirrors s m) (ha : a.Mirrors b) :
    ∃ m' b', Touched m 0 b src.own rest r m' b' ∧ w'.Mirrors s m' ∧ a'.Mirrors b' := by
  cases h with
  | unchanged hle =>
    exact ⟨m, _, .unchanged (src.changedAt_own.symm ▸ hle), hw, ha.moveTo rfl rfl⟩
  | changed hlt =>
    refine ⟨_, _, .changed (src.changedAt_own.symm ▸ hlt), hw.logged nofun,
      ha.moveTo (joins_afterRevalidation ..) ?_⟩
    rw [ha.rev, own_afterRevalidation]
  | failed => exact ⟨_, _, .failed, hw.logged nofun, ha.moveTo rfl rfl⟩

theorem Resumed.mirrored {r : AccessResult V} (h : Resumed w s a r w' a') (hw : w.Mirrors s m)
    (ha : a.Mirrors b) :
    ∃ m' b', Resumed m 0 b r m' b' ∧ w'.Mirrors s m' ∧ a'.Mirrors b' := by
  cases h with
  | touched hpc ht =>
    obtain ⟨m', b', ht', hw', ha'⟩ := ht.mirrored hw ha
    exact ⟨m', b', .touched (ha.pc_eq hpc) ht', hw', ha'⟩
  | answered hpc => exact ⟨m, _, .answered (ha.pc_eq hpc), hw, ha.moveTo rfl rfl⟩
  | idle hpc =>
    refine ⟨m, b, .idle ⟨fun src dep rest heq => ?_, fun prev d k deps heq => ?_⟩, hw, ha⟩
    · rw [ha.pc] at heq
      cases hp : a.pc with
      | touching src' dep' rest' => exact hpc.1 src' dep' rest' hp
      | _ => rw [hp] at heq; cases heq
    · rw [ha.pc] at heq
      cases hp : a.pc with
      | reading prev' d' k' deps' => exact hpc.2 prev' d' k' deps' hp
      | _ => rw [hp] at heq; cases heq

variable [DecidableEq V] {body : DynKey → Query V}

/-- **A step of an access on the snapshot is one of the mirrored access**, as long as nothing is
filed for what it is about to lead. -/
theorem ActStep.mirrored (hdet : ∀ n q, S.compute n q = body q)
    (h : ActStep S w s task below a w' mv) (hw : w.Mirrors s m) (ha : a.Mirrors b)
    (hbelow : List.Forall₂ Activation.Mirrors below below')
    (hfiled : ∀ prev, a.pc = .lead prev →
      w.registry.filed ⟨w.scope s, a.rev, a.key⟩ = none ∧
        m.registry.filed ⟨m.scope 0, b.rev, b.key⟩ = none) :
    ∃ m' mv', ActStep S m 0 task below' b m' mv' ∧ w'.Mirrors s m' ∧ mv.Mirrors mv' := by
  have hstate : m.state 0 b.key = (w.state s a.key).own := by
    rw [ha.key]
    exact hw.toCopies.state a.key
  have hshared : m.shared (m.scope 0) b.key =
      (w.shared (w.scope s) a.key).map SharedCacheRecord.own := by
    rw [ha.key]
    exact hw.shared a.key
  have hkeys : (b :: below').map (·.key) = (a :: below).map (·.key) := by
    rw [List.map_cons, List.map_cons, ha.key, keys_mirrors hbelow]
  have hlen : below'.length = below.length := hbelow.length_eq.symm
  have alone : ∀ {pc}, a.pc = pc → pc.joins = false := fun hpc => hpc ▸ ha.alone
  cases h with
  | top hpc =>
    exact ⟨m, _, .top (ha.pc_eq hpc), hw, .goto ⟨ha.key, hw.rev, ha.guard, rfl, rfl⟩⟩
  | listen hpc =>
    refine ⟨m, _, .listen (ha.pc_eq hpc), hw, .goto (ha.moveTo rfl ?_)⟩
    rw [ha.key, hw.toCopies.epoch]
    rfl
  | hit hpc hs hr =>
    rw [hs] at hstate
    exact ⟨m, _, .hit (ha.pc_eq hpc) hstate (hr.trans ha.rev.symm), hw, .goto (ha.moveTo rfl rfl)⟩
  | stale hpc hs hr =>
    rw [hs] at hstate
    exact ⟨m, _, .stale (ha.pc_eq hpc) hstate (ha.rev ▸ hr), hw, .goto (ha.moveTo rfl rfl)⟩
  | poison hpc hs =>
    rw [hs, ← ha.rev] at hstate
    exact ⟨m, _, .poison (ha.pc_eq hpc) hstate, hw, .goto (ha.moveTo rfl rfl)⟩
  | retry hpc hs =>
    refine ⟨m, _, .retry (ha.pc_eq hpc) ?_, hw, .goto (ha.moveTo rfl rfl)⟩
    rcases hs with hs | ⟨e, ver, hs, hver⟩
    · exact .inl (hstate.trans (by rw [hs]; rfl))
    · exact .inr ⟨e, ver, hstate.trans (by rw [hs]; rfl), ha.rev ▸ hver⟩
  | park hpc hs =>
    rw [hs] at hstate
    exact ⟨m, _, .park (ha.pc_eq hpc) hstate, hw, .goto (ha.moveTo rfl rfl)⟩
  | wake hpc hs =>
    refine ⟨m, _, .wake (ha.pc_eq hpc) ?_, hw, .goto (ha.moveTo rfl rfl)⟩
    rw [ha.key, hw.toCopies.epoch]
    exact hs
  | accept hpc =>
    refine ⟨_, _, .accept (ha.pc_eq hpc), hw.logged nofun,
      .goto (ha.moveTo (joins_afterRevalidation ..) ?_)⟩
    rw [ha.rev, own_afterRevalidation]
  | unregistered hpc hr =>
    refine ⟨_, _, .unregistered (ha.pc_eq hpc) hr, hw.logged nofun,
      .goto (ha.moveTo (joins_afterRevalidation ..) ?_)⟩
    rw [ha.rev, own_afterRevalidation]
  | touchInput hpc hk ht =>
    obtain ⟨m', b', ht', hw', ha'⟩ := ht.mirrored hw ha
    rw [← hw.inputs] at ht'
    exact ⟨m', _, .touchInput (ha.pc_eq hpc) hk ht', hw', .goto ha'⟩
  | touchInterned hpc hk hv ht =>
    obtain ⟨m', b', ht', hw', ha'⟩ := ht.mirrored hw ha
    exact ⟨m', _, .touchInterned (ha.pc_eq hpc) hk ((hw.toCopies.internedAt S _).trans hv) ht', hw',
      .goto ha'⟩
  | touchMissing hpc hk hv =>
    refine ⟨_, _, .touchMissing (ha.pc_eq hpc) hk ((hw.toCopies.internedAt S _).trans hv),
      (hw.logged fun i k heq => ?_).logged nofun, .goto (ha.moveTo rfl rfl)⟩
    cases heq
    rfl
  | touchCycle hpc hk hc =>
    rw [← hkeys] at hc
    refine ⟨_, _, .touchCycle (ha.pc_eq hpc) hk hc,
      (hw.logged fun _ _ heq => Event.noConfusion heq).logged nofun, .goto (ha.moveTo rfl ?_)⟩
    rw [hkeys]
    rfl
  | touchCall hpc hk hc =>
    rw [← hkeys] at hc
    exact ⟨m, _, .touchCall (ha.pc_eq hpc) hk hc, hw, .call (ha.moveTo rfl rfl)⟩
  | reverify hpc hs =>
    rw [hs] at hstate
    refine ⟨_, _, .reverify (ha.pc_eq hpc) hstate, ?_, .goto (ha.moveTo rfl rfl)⟩
    rw [ha.key, ha.rev]
    exact hw.setCell a.key _
  | overtaken hpc =>
    refine ⟨m, _, .overtaken (hpc.imp ha.pc_eq ha.pc_eq), hw, .goto (ha.moveTo rfl rfl)⟩
  | start hpc hs =>
    refine ⟨_, _, .start (ha.pc_eq hpc) ?_, ?_, .goto (ha.moveTo rfl rfl)⟩
    · rcases hs with ⟨r, hs, hr, rfl⟩ | ⟨hs, rfl⟩
      · exact .inl ⟨r.own, hstate.trans (by rw [hs]; rfl), ha.rev ▸ hr, rfl⟩
      · refine .inr ⟨hs.imp (fun hs => hstate.trans (by rw [hs]; rfl)) ?_, rfl⟩
        rintro ⟨e, ver, hs, hver⟩
        exact ⟨e, ver, hstate.trans (by rw [hs]; rfl), ha.rev ▸ hver⟩
    · rw [ha.key, ha.rev, hlen]
      exact hw.setCell a.key _
  | sharedMiss hpc hlook hs =>
    rcases hlook with rfl | rfl
    · refine ⟨{ m with lookups := m.lookups + 1 }, _, .sharedMiss (ha.pc_eq hpc) (.inl rfl) ?_,
        hw.counted w.calls m.calls _ _ w.registry m.registry, .goto (ha.moveTo rfl rfl)⟩
      exact hshared.trans (congrArg _ hs)
    · refine ⟨{ m.evictShared (m.scope 0) b.key with lookups := m.lookups + 1 }, _,
        .sharedMiss (ha.pc_eq hpc) (.inr rfl) ?_, ?_, .goto (ha.moveTo rfl rfl)⟩
      · show (m.evictShared (m.scope 0) b.key).shared (m.scope 0) b.key = none
        simp [World.shared_evictShared]
      · rw [ha.key]
        exact (hw.evictShared a.key).counted w.calls m.calls _ _ w.registry m.registry
  | sharedHit hpc hs hr =>
    rw [hs] at hshared
    refine ⟨_, _, .sharedHit (ha.pc_eq hpc) hshared (hr.trans ha.rev.symm),
      hw.counted w.calls m.calls _ _ w.registry m.registry, .goto (ha.moveTo rfl ?_)⟩
    rw [ha.rev, ← own_adoptOps s]
    rfl
  | sharedStale hpc hs hr =>
    rw [hs] at hshared
    exact ⟨_, _, .sharedStale (ha.pc_eq hpc) hshared (ha.rev ▸ hr),
      hw.counted w.calls m.calls _ _ w.registry m.registry, .goto (ha.moveTo rfl rfl)⟩
  | follow hpc hf =>
    rw [(hfiled _ hpc).1] at hf
    cases hf
  | lead hpc hf =>
    refine ⟨_, _, .lead (ha.pc_eq hpc) (hfiled _ hpc).2,
      hw.counted _ _ w.lookups m.lookups _ _, .goto ⟨ha.key, ha.rev, rfl, ?_, rfl⟩⟩
    rw [hdet, hdet, ha.key]
    rfl
  | followReset hpc | followListen hpc | followPark hpc | followDone hpc _ | followFailed hpc _
  | followCancelled hpc | followWake hpc => cases alone hpc
  | @finalize prev out deps hpc =>
    refine ⟨m, _, .finalize (ha.pc_eq hpc), hw, .goto (ha.moveTo rfl ?_)⟩
    rw [ha.rev, ← own_finalizeOps s]
    rfl
  | readInput hpc hk =>
    refine ⟨m, _, .readInput (ha.pc_eq hpc) hk, hw, .goto (ha.moveTo rfl ?_)⟩
    rw [hw.inputs]
    rfl
  | readInterned hpc hk hv =>
    exact ⟨m, _, .readInterned (ha.pc_eq hpc) hk ((hw.toCopies.internedAt S _).trans hv), hw,
      .goto (ha.moveTo rfl rfl)⟩
  | readMissing hpc hk hv =>
    refine ⟨_, _, .readMissing (ha.pc_eq hpc) hk ((hw.toCopies.internedAt S _).trans hv),
      hw.logged fun i k heq => ?_, .goto (ha.moveTo rfl rfl)⟩
    cases heq
    rfl
  | readCycle hpc hk hc =>
    rw [← hkeys] at hc
    refine ⟨_, _, .readCycle (ha.pc_eq hpc) hk hc,
      hw.logged fun _ _ heq => Event.noConfusion heq, .goto (ha.moveTo rfl ?_)⟩
    rw [hkeys]
    rfl
  | readCall hpc hk hc =>
    rw [← hkeys] at hc
    exact ⟨m, _, .readCall (ha.pc_eq hpc) hk hc, hw, .call (ha.moveTo rfl rfl)⟩
  | updateDeps hpc =>
    refine ⟨_, _, .updateDeps (ha.pc_eq hpc), ?_, .goto (ha.moveTo rfl rfl)⟩
    rw [ha.key]
    exact hw.updateQueryDeps a.key _
  | setCell hpc =>
    refine ⟨_, _, .setCell (ha.pc_eq hpc), ?_, .goto (ha.moveTo rfl rfl)⟩
    rw [ha.key]
    exact hw.setCell a.key _
  | notifyCell hpc =>
    refine ⟨_, _, .notifyCell (ha.pc_eq hpc), ?_, .goto (ha.moveTo rfl rfl)⟩
    rw [ha.key]
    exact hw.notifyCell a.key
  | putShared hpc =>
    refine ⟨_, _, .putShared (ha.pc_eq hpc), ?_, .goto (ha.moveTo rfl rfl)⟩
    rw [ha.key]
    exact hw.putShared a.key _
  | setEntry hpc hg =>
    obtain ⟨g', hg'⟩ := Option.isSome_iff_exists.mp (ha.guard.trans (by rw [hg]; rfl))
    exact ⟨_, _, .setEntry (ha.pc_eq hpc) hg',
      hw.counted w.calls m.calls w.lookups m.lookups _ _, .goto (ha.moveTo rfl rfl)⟩
  | notifyEntry hpc hg =>
    obtain ⟨g', hg'⟩ := Option.isSome_iff_exists.mp (ha.guard.trans (by rw [hg]; rfl))
    exact ⟨_, _, .notifyEntry (ha.pc_eq hpc) hg',
      hw.counted w.calls m.calls w.lookups m.lookups _ _, .goto (ha.moveTo rfl rfl)⟩
  | unregister hpc hg =>
    obtain ⟨g', hg'⟩ := Option.isSome_iff_exists.mp (ha.guard.trans (by rw [hg]; rfl))
    exact ⟨_, _, .unregister (ha.pc_eq hpc) hg',
      hw.counted w.calls m.calls w.lookups m.lookups _ _,
      .goto ⟨ha.key, ha.rev, rfl, rfl, rfl⟩⟩
  | unguarded hpc hop hg =>
    have hnone : b.guard = none := by
      rw [← Option.not_isSome_iff_eq_none, ha.guard, hg]
      exact nofun
    refine ⟨m, _, .unguarded (ha.pc_eq hpc) ?_ hnone, hw, .goto (ha.moveTo rfl rfl)⟩
    rcases hop with ⟨st, rfl⟩ | rfl | rfl
    · exact .inl ⟨st, rfl⟩
    · exact .inr (.inl rfl)
    · exact .inr (.inr rfl)
  | «return» hpc hr =>
    exact ⟨m, _, .return (ha.pc_eq hpc) ((hw.rev.trans hr).trans ha.rev.symm), hw, .ret⟩
  | restart hpc hr =>
    refine ⟨m, _, .restart (ha.pc_eq hpc) ?_, hw, .goto (ha.moveTo rfl rfl)⟩
    rw [hw.rev, ha.rev]
    exact hr
  | raise hpc => exact ⟨m, _, .raise (ha.pc_eq hpc), hw, .ret⟩

end steps

/-! ## 4. A step of a task -/

/-- The accesses on view `s` of `c` are those on view 0 of `m`, where there are no others. -/
structure Config.Mirrors (s : ViewId) (c m : Config V) : Prop where
  world : c.world.Mirrors s m.world
  tasks : ∀ t, c.Pending t → (c.tasks t).view = s → (m.tasks t).view = 0 ∧
    (m.tasks t).key = (c.tasks t).key ∧
      List.Forall₂ Activation.Mirrors (c.tasks t).stack (m.tasks t).stack
  others : ∀ t, m.Pending t → c.Pending t ∧ (c.tasks t).view = s

section tasks

variable {S : Schema V} {s : ViewId} {c c' m : Config V} {t : TaskId} {w w' : World V}

/-- The task and its mirror get other stacks, in worlds that mirror each other. -/
theorem Config.Mirrors.withTask (h : c.Mirrors s m) (hw : w.Mirrors s w') {task task' : Task V}
    (hview : (c.tasks t).view = s) (hpend : c.Pending t) (hviews : task.view = (c.tasks t).view)
    (hviews' : task'.view = (m.tasks t).view) (hkey : task.key = (c.tasks t).key)
    (hkey' : task'.key = (m.tasks t).key)
    (hst : List.Forall₂ Activation.Mirrors task.stack task'.stack) :
    Config.Mirrors s ({ c with world := w }.setTask t task)
      ({ m with world := w' }.setTask t task') where
  world := hw
  tasks t' ht' hv := by
    by_cases ht : t' = t
    · subst ht
      obtain ⟨hview', hkeys, -⟩ := h.tasks t' hpend hview
      simp only [setTask, Function.update_self]
      exact ⟨hviews'.trans hview', hkey'.trans (hkeys.trans hkey.symm), hst⟩
    · simp only [setTask, Function.update_of_ne ht] at hv ⊢
      exact h.tasks t' ((pending_setTask_ne ht task).mp ht') hv
  others t' ht' := by
    by_cases ht : t' = t
    · subst ht
      unfold Pending at ht' ⊢
      simp only [setTask, Function.update_self] at ht' ⊢
      refine ⟨fun hnil => ht' ?_, hviews.trans hview⟩
      rw [hnil] at hst
      exact List.forall₂_nil_left_iff.mp hst
    · have hp := h.others t' ((pending_setTask_ne ht task').mp ht')
      simp only [setTask, Function.update_of_ne ht]
      exact ⟨(pending_setTask_ne ht task).mpr hp.1, hp.2⟩

variable [DecidableEq V] {body : DynKey → Query V}

/-- **A step of an access on the snapshot is mirrored**, and so is what it returns, as long as
nothing is filed for what it is about to lead. -/
theorem Config.TaskStep.mirrored (hdet : ∀ n q, S.compute n q = body q) (hs : TaskStep S c t c')
    (hm : c.Mirrors s m) (hview : (c.tasks t).view = s)
    (hfiled : ∀ a below b below', (c.tasks t).stack = a :: below →
      (m.tasks t).stack = b :: below' → ∀ prev, a.pc = .lead prev →
        c.world.registry.filed ⟨c.world.scope s, a.rev, a.key⟩ = none ∧
          m.world.registry.filed ⟨m.world.scope 0, b.rev, b.key⟩ = none) :
    ∃ m', TaskStep S m t m' ∧ c'.Mirrors s m' ∧
      (¬ c'.Pending t → (m'.tasks t).result = (c'.tasks t).result) := by
  have hpend := hs.same_access.1
  obtain ⟨hview', -, hstack⟩ := hm.tasks t hpend hview
  cases hs with
  | @goto a a' below w hst ha =>
    rw [hst] at hstack
    obtain ⟨b, below', hab, hbelow, hst'⟩ := List.forall₂_cons_left_iff.mp hstack
    rw [hview] at ha
    obtain ⟨w', mv, hb, hw, hmv⟩ := ha.mirrored hdet hm.world hab hbelow
      (hfiled a below b below' hst hst')
    cases hmv with
    | goto hab' =>
      refine ⟨_, .goto hst' (by rw [hview']; exact hb),
        hm.withTask hw hview hpend rfl rfl rfl rfl (.cons hab' hbelow), fun hdone => ?_⟩
      exact absurd (by simp [Pending, setTask]) hdone
  | @call a a' below w child hst ha =>
    rw [hst] at hstack
    obtain ⟨b, below', hab, hbelow, hst'⟩ := List.forall₂_cons_left_iff.mp hstack
    rw [hview] at ha
    obtain ⟨w', mv, hb, hw, hmv⟩ := ha.mirrored hdet hm.world hab hbelow
      (hfiled a below b below' hst hst')
    cases hmv with
    | call hab' =>
      refine ⟨_, .call hst' (by rw [hview']; exact hb),
        hm.withTask hw hview hpend rfl rfl rfl rfl
          (.cons (mirrors_enter child) (.cons hab' hbelow)),
        fun hdone => ?_⟩
      exact absurd (by simp [Pending, setTask]) hdone
  | @ret a w r hst ha =>
    rw [hst] at hstack
    obtain ⟨b, below', hab, hbelow, hst'⟩ := List.forall₂_cons_left_iff.mp hstack
    obtain rfl := List.forall₂_nil_left_iff.mp hbelow
    rw [hview] at ha
    obtain ⟨w', mv, hb, hw, hmv⟩ := ha.mirrored hdet hm.world hab .nil
      (hfiled a [] b [] hst hst')
    cases hmv with
    | ret =>
      refine ⟨_, .ret hst' (by rw [hview']; exact hb),
        hm.withTask hw hview hpend rfl rfl rfl rfl .nil, fun _ => ?_⟩
      simp [setTask]
  | @resume a q q' below w w₁ r hst ha hq =>
    rw [hst] at hstack
    obtain ⟨b, rest, hab, hrest, hst'⟩ := List.forall₂_cons_left_iff.mp hstack
    obtain ⟨q₁, below', hqq, hbelow, rfl⟩ := List.forall₂_cons_left_iff.mp hrest
    rw [hview] at ha hq
    obtain ⟨w', mv, hb, hw, hmv⟩ := ha.mirrored hdet hm.world hab hrest
      (hfiled a (q :: below) b (q₁ :: below') hst hst')
    cases hmv with
    | ret =>
      obtain ⟨w₂, q₂, hq', hw', hqq'⟩ := hq.mirrored hw hqq
      refine ⟨_, .resume hst' (by rw [hview']; exact hb) (by rw [hview']; exact hq'),
        hm.withTask hw' hview hpend rfl rfl rfl rfl (.cons hqq' hbelow), fun hdone => ?_⟩
      exact absurd (by simp [Pending, setTask]) hdone

end tasks

end Picante

/-
# A snapshot is one cut

`from_database` reads the revision of the database first, then copies the slots of one input
ingredient after another, and last the cells, each under its own lock.  A `set` that comes between
two of these steps tears the copy (`snapshot_is_torn`): the snapshot has an entry that is newer
than its revision.

It is not torn as long as no entry is stored, and no result is verified, at a revision the snapshot
does not have, in a place that is still to be copied, and no entry at a revision it has, in a slot
that was copied already (`snapshot_is_one_cut`).
-/
import Picante.Cancellation
import Picante.Copying.Basic

namespace Picante

open Tables Config

variable {V : Type}

/-! ## 1. When cells are verified -/

/-- The results that the activation is still to store in its cell are verified at `rev`. -/
def Pc.StoresAt (rev : Revision) : Pc V → Prop
  | .finishing ops => ∀ R, .setCell (.ready R) ∈ ops → R.verifiedAt = rev
  | _ => True

/-- The next step stores a result in the cell. -/
def Pc.storesResult : Pc V → Bool
  | .reverify => true
  | .finishing (.setCell (.ready _) :: _) => true
  | _ => false

section activation

variable {w w' : World V} {view : ViewId} {a a' : Activation V} {rev : Revision}

theorem storesAt_raise (e : PicanteError) : (Pc.finishing [.raise e] : Pc V).StoresAt rev := by
  intro R hR
  cases List.mem_singleton.mp hR

theorem storesAt_checked (r : AccessResult V) : (Pc.finishing [.checked r]).StoresAt rev := by
  intro R hR
  cases List.mem_singleton.mp hR

theorem storesAt_adoptOps (F : SharedCacheRecord V) :
    (Pc.finishing (adoptOps view rev F)).StoresAt rev := by
  intro R hR
  simp only [adoptOps, List.mem_cons, List.not_mem_nil, or_false, reduceCtorEq, false_or,
    MicroOp.setCell.injEq, ErasedState.ready.injEq] at hR
  rw [hR]

theorem storesAt_followOps {leader : ViewId} (v : V) (deps : List Dep) (ch : Revision) :
    (Pc.finishing (followOps view leader rev v deps ch)).StoresAt rev := by
  intro R hR
  simp only [followOps, List.mem_cons, List.not_mem_nil, or_false, reduceCtorEq,
    MicroOp.setCell.injEq, ErasedState.ready.injEq] at hR
  rw [hR]

theorem storesAt_followFailedOps (e : PicanteError) :
    (Pc.finishing (followFailedOps rev e) : Pc V).StoresAt rev := by
  intro R hR
  simp [followFailedOps] at hR

theorem storesAt_finalizeOps [DecidableEq V] (prev : Previous V) (deps : List Dep)
    (out : PicanteResult V) : (Pc.finishing (finalizeOps view rev prev deps out)).StoresAt rev := by
  intro R hR
  cases out with
  | ok v =>
    simp only [finalizeOps, List.mem_cons, List.not_mem_nil, or_false, reduceCtorEq, false_or,
      MicroOp.setCell.injEq, ErasedState.ready.injEq] at hR
    rw [hR]
  | error e => simp [finalizeOps] at hR

theorem storesAt_afterRevalidation (src : Source V) (accepted : Bool) :
    (afterRevalidation view rev src accepted).StoresAt rev := by
  cases src with
  | cell deps ch foreign => cases accepted <;> trivial
  | shared F prev =>
    cases accepted with
    | false => trivial
    | true => exact storesAt_adoptOps F

theorem Touched.storesAt {src : Source V} {rest : List Dep} {res : PicanteResult Revision}
    (h : Touched w view a src rest res w' a') : a'.pc.StoresAt a.rev := by
  cases h with
  | unchanged _ => trivial
  | changed _ => exact storesAt_afterRevalidation src false
  | failed => exact storesAt_raise _

theorem Resumed.storesAt {r : AccessResult V} (hpc : a.pc.StoresAt a.rev)
    (h : Resumed w view a r w' a') : a'.pc.StoresAt a'.rev := by
  cases h with
  | touched _ ht => exact ht.rev ▸ ht.storesAt
  | answered _ => trivial
  | idle _ => exact hpc

variable [DecidableEq V] {S : Schema V} {task : TaskId} {below : List (Activation V)}

/-- An activation stores its results at the revision it has read. -/
theorem ActStep.storesAt (hpc : a.pc.StoresAt a.rev)
    (h : ActStep S w view task below a w' (.goto a')) : a'.pc.StoresAt a'.rev := by
  have tail : ∀ {op : MicroOp V} {ops : List (MicroOp V)}, a.pc = .finishing (op :: ops) →
      (Pc.finishing ops).StoresAt a.rev := by
    intro op ops heq R hR
    rw [heq] at hpc
    exact hpc R (List.mem_cons_of_mem _ hR)
  cases h with
  | hit | poison | reverify => exact storesAt_checked _
  | touchMissing | touchCycle => exact storesAt_raise _
  | accept => exact storesAt_afterRevalidation _ true
  | unregistered => exact storesAt_afterRevalidation _ false
  | touchInput _ _ ht | touchInterned _ _ _ ht => exact ht.rev ▸ ht.storesAt
  | sharedHit => exact storesAt_adoptOps _
  | followDone => exact storesAt_followOps _ _ _
  | followFailed => exact storesAt_followFailedOps _
  | finalize => exact storesAt_finalizeOps _ _ _
  | updateDeps heq | setCell heq | notifyCell heq | putShared heq | setEntry heq
  | notifyEntry heq | unregister heq | unguarded heq => exact tail heq
  | _ => trivial

/-- **What a step finds ready was ready before**, or the step has stored it, at its revision. -/
theorem ActStep.ready (hpc : a.pc.StoresAt a.rev) {m : Move V}
    (h : ActStep S w view task below a w' m) {j : ViewId} {q : DynKey} {R : ReadyRecord V}
    (hR : w'.state j q = .ready R) : w.state j q = .ready R ∨
      j = view ∧ q = a.key ∧ a.pc.storesResult = true ∧ R.verifiedAt = a.rev := by
  have set : ∀ {st : ErasedState V}, (w.setCell view a.key st).state j q = .ready R →
      w.state j q = .ready R ∨ j = view ∧ q = a.key ∧ st = .ready R := by
    intro st hst
    rw [World.state_setCell] at hst
    split at hst
    · next heq => exact .inr ⟨heq.1, heq.2, hst⟩
    · exact .inl hst
  cases h with
  | reverify heq hs =>
    refine (set hR).imp id fun ⟨hj, hq, hst⟩ => ⟨hj, hq, by rw [heq]; rfl, ?_⟩
    cases hst
    rfl
  | start => exact (set hR).imp id fun ⟨_, _, hst⟩ => nomatch hst
  | followReset => exact (set hR).imp id fun ⟨_, _, hst⟩ => nomatch hst
  | @setCell st ops heq =>
    refine (set hR).imp id fun ⟨hj, hq, hst⟩ => ?_
    subst hst
    rw [heq] at hpc
    exact ⟨hj, hq, by rw [heq]; rfl, hpc R (List.mem_cons_self ..)⟩
  | touchInput _ _ ht | touchInterned _ _ _ ht => exact .inl (ht.same.state j q ▸ hR)
  | sharedMiss _ hw => rcases hw with rfl | rfl <;> exact .inl hR
  | updateDeps => exact .inl (by rwa [World.state_modifyRuntime] at hR)
  | notifyCell => exact .inl (by rwa [World.state_notifyCell] at hR)
  | _ => exact .inl hR

end activation

namespace Config

/-- Task `t` is about to store a result, verified at `r`, in the cell of `q` in the database. -/
def Verifies (c : Config V) (t : TaskId) (q : DynKey) (r : Revision) : Prop :=
  ∃ a below, (c.tasks t).stack = a :: below ∧ (c.tasks t).view = 0 ∧ a.key = q ∧
    a.pc.storesResult = true ∧ a.rev = r

/-- The results of the database are verified at revisions it has reached. -/
structure Verified (c : Config V) : Prop where
  cells : ∀ q R, c.world.state 0 q = .ready R → R.verifiedAt ≤ c.world.rev 0
  stacked : ∀ t, ∀ b ∈ (c.tasks t).stack, b.pc.StoresAt b.rev ∧
    ((c.tasks t).view = 0 → b.pc = .top ∨ b.rev ≤ c.world.rev 0)

theorem verified_init : Verified (init : Config V) where
  cells _ _ h := nomatch h
  stacked _ _ h := absurd h List.not_mem_nil

section verified

variable {c c' : Config V} {t : TaskId}

/-- The cells of the database are as they were, and its tasks too. -/
theorem Verified.of_same (h : Verified c)
    (hcells : ∀ q R, c'.world.state 0 q = .ready R → c.world.state 0 q = .ready R)
    (hrev : c.world.rev 0 ≤ c'.world.rev 0) (htasks : c'.tasks = c.tasks) : Verified c' where
  cells q R hR := Nat.le_trans (h.cells q R (hcells q R hR)) hrev
  stacked t b hb := by
    rw [htasks] at hb ⊢
    obtain ⟨hst, hle⟩ := h.stacked t b hb
    exact ⟨hst, fun hview => (hle hview).imp id fun hle => Nat.le_trans hle hrev⟩

/-- Another stack for one task. -/
theorem Verified.withTask (h : Verified c) {w : World V} {task : Task V}
    (hcells : ∀ q R, w.state 0 q = .ready R → R.verifiedAt ≤ w.rev 0)
    (hrev : w.rev 0 = c.world.rev 0) (hview : task.view = (c.tasks t).view)
    (hst : ∀ b ∈ task.stack, b.pc.StoresAt b.rev ∧
      ((c.tasks t).view = 0 → b.pc = .top ∨ b.rev ≤ c.world.rev 0)) :
    Verified ({ c with world := w }.setTask t task) where
  cells := hcells
  stacked t' b hb := by
    show b.pc.StoresAt b.rev ∧ (_ → b.pc = .top ∨ b.rev ≤ w.rev 0)
    rw [hrev]
    rcases eq_or_ne t' t with rfl | ht
    · simp only [setTask, Function.update_self] at hb ⊢
      rw [hview]
      exact hst b hb
    · simp only [setTask, Function.update_of_ne ht] at hb ⊢
      exact h.stacked t' b hb

variable [DecidableEq V] {S : Schema V}

/-- A step of a task: its results are verified in time, and what is ready was so before, or the
task has stored it. -/
theorem Verified.taskStep (h : Verified c) (hstep : TaskStep S c t c') : Verified c' ∧
    ∀ q R, c'.world.state 0 q = .ready R →
      c.world.state 0 q = .ready R ∨ c.Verifies t q R.verifiedAt := by
  have hstack := h.stacked t
  -- the step of the activation on top, and what it leaves in the cells
  have top : ∀ {a below w m}, (c.tasks t).stack = a :: below →
      ActStep S c.world (c.tasks t).view t below a w m → ∀ q R, w.state 0 q = .ready R →
        c.world.state 0 q = .ready R ∨ c.Verifies t q R.verifiedAt := by
    intro a below w m hst ha q R hR
    refine (ha.ready (hstack a (hst ▸ List.mem_cons_self ..)).1 hR).imp id ?_
    rintro ⟨hview, hq, hres, hver⟩
    exact ⟨a, below, hst, hview.symm, hq.symm, hres, hver.symm⟩
  have cells : ∀ {a below w m}, (c.tasks t).stack = a :: below →
      ActStep S c.world (c.tasks t).view t below a w m → ∀ q R, w.state 0 q = .ready R →
        R.verifiedAt ≤ w.rev 0 := by
    intro a below w m hst ha q R hR
    rw [ha.fixed.rev]
    rcases top hst ha q R hR with hold | ⟨b, below', hst', hview, -, hres, hrev⟩
    · exact h.cells q R hold
    · rw [← hrev]
      obtain ⟨-, hle⟩ := hstack b (hst' ▸ List.mem_cons_self ..)
      refine (hle hview).resolve_left fun htop => ?_
      rw [htop] at hres
      cases hres
  cases hstep with
  | @goto a a' below w hst ha =>
    refine ⟨h.withTask (cells hst ha) (ha.fixed.rev 0) rfl fun b hb => ?_, top hst ha⟩
    rw [hst] at hstack
    obtain ⟨hpc, hle⟩ := hstack a (List.mem_cons_self ..)
    rcases List.mem_cons.mp hb with rfl | hb
    · refine ⟨ha.storesAt hpc, fun hview => .inr ?_⟩
      rcases ha.goto_rev with hread | ⟨hsame, hne⟩
      · exact Nat.le_of_eq (hread.trans (congrArg _ hview))
      · rw [hsame]
        exact (hle hview).resolve_left hne
    · exact hstack b (List.mem_cons_of_mem _ hb)
  | @call a a' below w child hst ha =>
    refine ⟨h.withTask (cells hst ha) (ha.fixed.rev 0) rfl fun b hb => ?_, top hst ha⟩
    rw [hst] at hstack
    obtain ⟨-, hle⟩ := hstack a (List.mem_cons_self ..)
    rcases List.mem_cons.mp hb with rfl | hb
    · exact ⟨trivial, fun _ => .inl rfl⟩
    · rcases List.mem_cons.mp hb with rfl | hb
      · obtain ⟨hsame, hne⟩ := ha.call_rev
        refine ⟨by cases ha <;> trivial, fun hview => .inr ?_⟩
        rw [hsame]
        exact (hle hview).resolve_left hne
      · exact hstack b (List.mem_cons_of_mem _ hb)
  | @ret a w r hst ha =>
    exact ⟨h.withTask (cells hst ha) (ha.fixed.rev 0) rfl fun b hb => absurd hb List.not_mem_nil,
      top hst ha⟩
  | @resume a p p' below w w' r hst ha hp =>
    have hsame := hp.same
    have hcells : ∀ q R, w'.state 0 q = .ready R → w.state 0 q = .ready R :=
      fun q R hR => hsame.state 0 q ▸ hR
    refine ⟨h.withTask (fun q R hR => ?_) ((hsame.rev 0).trans (ha.fixed.rev 0)) rfl
      fun b hb => ?_, fun q R hR => top hst ha q R (hcells q R hR)⟩
    · rw [hsame.rev]
      exact cells hst ha q R (hcells q R hR)
    · rw [hst] at hstack
      obtain ⟨hpc, hle⟩ := hstack p (List.mem_cons_of_mem _ (List.mem_cons_self ..))
      rcases List.mem_cons.mp hb with rfl | hb
      · obtain ⟨hrev, htop⟩ := hp.rev
        refine ⟨hp.storesAt hpc, fun hview => ?_⟩
        rw [hrev]
        exact (hle hview).imp htop id
      · exact hstack b (List.mem_cons_of_mem _ (List.mem_cons_of_mem _ hb))

/-- **What is ready in the database was so before a step, or the step has stored it**, verified at
the revision its access has read. -/
theorem Verified.step (h : Verified c) {l : Label V} (hs : Config.step S c l = some c') :
    Verified c' ∧ ∀ q R, c'.world.state 0 q = .ready R →
      c.world.state 0 q = .ready R ∨ ∃ t, l = .step t ∧ c.Verifies t q R.verifiedAt := by
  have hrev := (sourceStep hs).rev
  have same : c'.tasks = c.tasks → (∀ q R, c'.world.state 0 q = .ready R →
      c.world.state 0 q = .ready R) → Verified c' ∧ ∀ q R, c'.world.state 0 q = .ready R →
        c.world.state 0 q = .ready R ∨ ∃ t, l = .step t ∧ c.Verifies t q R.verifiedAt :=
    fun htasks hcells => ⟨h.of_same hcells hrev htasks, fun q R hR => .inl (hcells q R hR)⟩
  cases l with
  | step t =>
    obtain ⟨hv, hready⟩ := h.taskStep (taskStep_of_step hs)
    exact ⟨hv, fun q R hR => (hready q R hR).imp id fun ht => ⟨t, rfl, ht⟩⟩
  | drop t =>
    simp only [Config.step, dropTask] at hs
    split at hs
    · cases hs
    · next a below _ =>
      split at hs <;> cases hs
      have hcells : ∀ q, (cancelGuards c.world (a :: below)).state 0 q = c.world.state 0 q :=
        fun q => congrArg ErasedCell.state (cell_cancelGuards ..)
      have hfixed := fixed_cancelGuards c.world (a :: below)
      refine ⟨h.withTask (fun q R hR => ?_) (hfixed.rev 0) rfl
        fun b hb => absurd hb List.not_mem_nil, fun q R hR => .inl (hcells q ▸ hR)⟩
      rw [hfixed.rev]
      exact h.cells q R (hcells q ▸ hR)
  | spawn view key want =>
    simp only [Config.step] at hs
    split at hs <;> cases hs
    refine ⟨⟨h.cells, fun t b hb => ?_⟩, fun q R hR => .inl hR⟩
    rcases eq_or_ne t c.taskCount with rfl | hne
    · simp only [Function.update_self] at hb
      rw [List.mem_singleton.mp hb]
      exact ⟨trivial, fun _ => .inl rfl⟩
    · simp only [Function.update_of_ne hne] at hb ⊢
      exact h.stacked t b hb
  | mutate view key value =>
    simp only [Config.step] at hs
    split at hs <;> cases hs
    refine same rfl fun q R hR => ?_
    have hR' : (mutateWorld c.world view key value).state 0 q = .ready R := hR
    unfold mutateWorld at hR'
    split at hR'
    · exact hR'
    · rwa [World.state_storeInput, World.state, World.cell_markDivergent, ← World.state,
        World.state_modifyRuntime] at hR'
  | «begin» view key value =>
    simp only [Config.step] at hs
    split at hs <;> cases hs
    exact same rfl fun q R hR => hR
  | advance n =>
    simp only [Config.step] at hs
    split at hs
    · cases hs
    · next m _ =>
      split at hs
      · cases hs
      · next w m' hm =>
        cases hs
        refine same rfl fun q R hR => ?_
        have hcell : w.cell 0 q = c.world.cell 0 q := cell_stepMutator hm 0 q
        exact (congrArg ErasedCell.state hcell).symm.trans hR
  | intern kind value =>
    cases hs
    exact same rfl fun q R hR => hR
  | bump view =>
    simp only [Config.step] at hs
    split at hs <;> cases hs
    exact same rfl fun q R hR => (World.state_modifyRuntime ..).symm.trans hR
  | snapshot =>
    cases hs
    refine same rfl fun q R hR => ?_
    have hR' : c.world.snapshot.state 0 q = .ready R := hR
    rw [World.state_snapshot] at hR'
    split at hR'
    · exact ErasedCell.ready_of_snapshot hR'
    · exact hR'

end verified

end Config

/-! ## 2. The cells of a copy -/

namespace Copying

/-- A result that the step stores in a cell that is still to be copied is verified at no later
revision than those the copy has read. -/
def VerifiesTimely (s : Copying V) : CopyLabel V → Prop
  | .base (.step t) => ∀ q r, s.config.Verifies t q r → .cell q ∈ s.remaining →
      ∀ R ∈ s.revisions, r ≤ R
  | _ => True

/-- No cell that was copied, or is still to be, was verified later than at a revision that was
read. -/
structure CellsCut (s : Copying V) : Prop where
  unread : ∀ q, .cell q ∈ s.remaining → ∀ R ∈ s.revisions, ∀ rec,
    s.config.world.state 0 q = .ready rec → rec.verifiedAt ≤ R
  reached : ∀ q rec, (s.taken.cells q).state = .ready rec →
    rec.verifiedAt ≤ s.config.world.rev 0
  read : ∀ q rec, (s.taken.cells q).state = .ready rec → ∀ R ∈ s.revisions, rec.verifiedAt ≤ R

theorem cellsCut_start (ops : List CopyOp) : (start ops : Copying V).CellsCut where
  unread _ _ _ hR := absurd hR List.not_mem_nil
  reached _ _ h := nomatch h
  read _ _ h := nomatch h

variable [DecidableEq V] {S : Schema V} {ops : List CopyOp} {s s' : Copying V} {l : CopyLabel V}

/-- **A step that verifies in time keeps the cells cut.** -/
theorem CellsCut.step (h : s.CellsCut) (hv : s.config.Verified) (hs : s.step S l = some s')
    (hok : s.VerifiesTimely l) : s'.CellsCut ∧ s'.config.Verified := by
  cases l with
  | base l =>
    obtain ⟨c, hc, rfl⟩ := step_base hs
    obtain ⟨hv', hready⟩ := hv.step hc
    refine ⟨⟨fun q hq R hR rec hrec => ?_, fun q rec hrec => ?_, h.read⟩, hv'⟩
    · rcases hready q rec hrec with hold | ⟨t, rfl, ht⟩
      · exact h.unread q hq R hR rec hold
      · exact hok q _ ht hq R hR
    · exact Nat.le_trans (h.reached q rec hrec) (sourceStep hc).rev
  | take =>
    obtain ⟨op, rest, hrem, rfl⟩ := step_take hs
    have hmem : ∀ {op'}, op' ∈ rest → op' ∈ s.remaining := fun h' => by
      rw [hrem]
      exact List.mem_cons_of_mem _ h'
    cases op with
    | revision =>
      refine ⟨⟨fun q hq R hR rec hrec => ?_, h.reached, fun q rec hrec R hR => ?_⟩, hv⟩
      · rcases List.mem_append.mp hR with hR | hR
        · exact h.unread q (hmem hq) R hR rec hrec
        · rw [List.mem_singleton.mp hR]
          exact hv.cells q rec hrec
      · rcases List.mem_append.mp hR with hR | hR
        · exact h.read q rec hrec R hR
        · rw [List.mem_singleton.mp hR]
          exact h.reached q rec hrec
    | cell k =>
      -- the cell that is copied now, or one that was copied before
      have hcase : ∀ q rec, ((s.read (.cell k)).taken.cells q).state = .ready rec →
          q = k ∧ s.config.world.state 0 q = .ready rec ∨
            (s.taken.cells q).state = .ready rec := by
        intro q rec hrec
        have hcell : (s.read (.cell k)).taken.cells q =
            if q = k then (s.config.world.cell 0 k).snapshot else s.taken.cells q :=
          Function.update_apply ..
        rw [hcell] at hrec
        split at hrec
        · next heq =>
          subst heq
          exact .inl ⟨rfl, ErasedCell.ready_of_snapshot hrec⟩
        · exact .inr hrec
      refine ⟨⟨fun q hq => h.unread q (hmem hq), fun q rec hrec => ?_,
        fun q rec hrec R hR => ?_⟩, hv⟩
      · rcases hcase q rec hrec with ⟨rfl, hst⟩ | hold
        · exact hv.cells q rec hst
        · exact h.reached q rec hold
      · rcases hcase q rec hrec with ⟨rfl, hst⟩ | hold
        · refine h.unread q ?_ R hR rec hst
          rw [hrem]
          exact List.mem_cons_self ..
        · exact h.read q rec hold R hR
    | slots kind => exact ⟨⟨fun q hq => h.unread q (hmem hq), h.reached, h.read⟩, hv⟩
    | ids kind => exact ⟨⟨fun q hq => h.unread q (hmem hq), h.reached, h.read⟩, hv⟩

/-! ## 3. `from_database` -/

/-- What `from_database` reads: the revision, the slots of every input ingredient, and the cells of
every derived one, those it finds when it looks which there are. -/
def fromDatabase (inputs tracked : List QueryKindId) (keys : QueryKindId → List Key) :
    List CopyOp :=
  .revision :: (inputs.map .slots ++
    tracked.flatMap fun kind => (keys kind).map fun key => .cell ⟨kind, key⟩)

/-- The snapshot, once everything was read. -/
def snapshot (s : Copying V) : Option (View V) :=
  match s.remaining, s.revisions with
  | [], R :: _ => some
    { runtime := (Runtime.newForSnapshot
        (s.config.world.views 0).runtime.id).setCurrentRevision R
      inputs := s.taken.inputs
      cells := s.taken.cells }
  | _, _ => none

omit [DecidableEq V] in
theorem snapshot_eq_some {view : View V} (h : s.snapshot = some view) :
    s.remaining = [] ∧ s.revisions.head? = some view.runtime.currentRevision ∧
      view.inputs = s.taken.inputs ∧ view.cells = s.taken.cells := by
  unfold snapshot at h
  split at h
  · next R rest hrem hrev =>
    cases h
    exact ⟨hrem, by rw [hrev]; rfl, rfl, rfl⟩
  · cases h

/-- The steps of a call of `from_database` that is not torn. -/
def Untorn (ops : List CopyOp) (s : Copying V) (l : CopyLabel V) : Prop :=
  s.StoresTimely ops l ∧ s.VerifiesTimely l

/-- **The revision of a copy was current when it was read**, the first thing of all. -/
theorem revision_was_current {ok : Copying V → CopyLabel V → Copying V → Prop}
    {ls : List (CopyLabel V)} {rest : List CopyOp}
    (h : Trans.Steps (step S) ok (start (.revision :: rest)) ls s) :
    s.remaining = .revision :: rest ∧ s.revisions = [] ∨
      ∃ ls₁ m ls₂, ls = ls₁ ++ .take :: ls₂ ∧
        Trans.Steps (step S) ok (start (.revision :: rest)) ls₁ m ∧
        Trans.Steps (step S) ok m (.take :: ls₂) s ∧ m.remaining = .revision :: rest ∧
        s.revisions.head? = some (m.config.world.rev 0) := by
  induction h with
  | nil => exact .inl ⟨rfl, rfl⟩
  | @snoc ls l m s' h hl hok ih =>
    rcases ih with ⟨hrem, hrev⟩ | ⟨ls₁, m₁, ls₂, rfl, h₁, h₂, hrem, hhead⟩
    · cases l with
      | base l =>
        obtain ⟨c, -, rfl⟩ := step_base hl
        exact .inl ⟨hrem, hrev⟩
      | take =>
        refine .inr ⟨ls, m, [], rfl, h, .single hl hok, hrem, ?_⟩
        obtain ⟨op, rest', hrem', rfl⟩ := step_take hl
        rw [hrem] at hrem'
        obtain ⟨rfl, -⟩ := List.cons.inj hrem'
        show (m.revisions ++ [m.config.world.rev 0]).head? = _
        rw [hrev]
        rfl
    · refine .inr ⟨ls₁, m₁, ls₂ ++ [l], by simp, h₁, .snoc h₂ hl hok, hrem, ?_⟩
      cases l with
      | base l =>
        obtain ⟨c, -, rfl⟩ := step_base hl
        exact hhead
      | take =>
        obtain ⟨op, rest', -, rfl⟩ := step_take hl
        cases op with
        | revision =>
          show (m.revisions ++ [m.config.world.rev 0]).head? = _
          cases hm : m.revisions with
          | nil => rw [hm] at hhead; cases hhead
          | cons R Rs => rw [hm] at hhead; exact hhead
        | _ => exact hhead

/-- **What a database has at a revision** at which no call is halfway, it has in its slots then:
all that is stored later has a later revision. -/
theorem latest_upTo_of_settled {ok : Copying V → CopyLabel V → Copying V → Prop} {m : Copying V}
    {ls : List (CopyLabel V)} (hm : m.Dated) (hsettled : ∀ r, ¬ m.config.Moved r)
    (h : Trans.Steps (step S) ok m ls s) :
    latest (upTo (m.config.world.rev 0) s.changes) = m.config.world.inputs 0 := by
  let R := m.config.world.rev 0
  have hrun : R ≤ s.config.world.rev 0 ∧ (∀ r, s.config.Moved r → R < r) ∧
      upTo R s.changes = m.changes := by
    refine h.invariant (I := fun s => R ≤ s.config.world.rev 0 ∧
      (∀ r, s.config.Moved r → R < r) ∧ upTo R s.changes = m.changes) ?_ ?_
    · refine ⟨Nat.le_refl _, fun r hr => absurd hr (hsettled r), ?_⟩
      exact List.filter_eq_self.mpr fun c hc => decide_eq_true (hm.changes c hc)
    · intro s l s' ⟨hle, hmoved, hsame⟩ hl _
      cases l with
      | base l =>
        obtain ⟨c, hc, rfl⟩ := step_base hl
        have hsrc := sourceStep hc
        refine ⟨Nat.le_trans hle hsrc.rev, fun r hr => ?_, ?_⟩
        · exact (hsrc.moved r hr).elim (hmoved r) fun hr => Nat.lt_of_le_of_lt hle hr.1
        · show upTo R (s.changes ++ (s.config.stored l).toList) = m.changes
          unfold upTo at hsame ⊢
          rw [List.filter_append, hsame, List.filter_eq_nil_iff.mpr, List.append_nil]
          intro c hc'
          obtain ⟨k, e⟩ := c
          have hlt : R < e.changedAt :=
            (hsrc.stored k e (Option.mem_toList.mp hc')).elim (hmoved _)
              fun hr => Nat.lt_of_le_of_lt hle hr.1
          simpa using hlt
      | take =>
        obtain ⟨op, rest, -, rfl⟩ := step_take hl
        cases op <;> exact ⟨hle, hmoved, hsame⟩
  show latest (upTo R s.changes) = _
  rw [hrun.2.2, hm.slots]

end Copying

open Copying in
/-- **A snapshot is one cut**, in every run that does not tear it.  Its revision `R` was current
when the call started; of every input ingredient it has the entries up to `R`, which are what is in
the slots whenever the database is at `R` and no call is halfway; and its cells were verified at `R`
or before. -/
theorem snapshot_is_one_cut [DecidableEq V] {S : Schema V} {inputs tracked : List QueryKindId}
    {keys : QueryKindId → List Key} {ls : List (CopyLabel V)} {s : Copying V} {view : View V}
    (h : Trans.Steps (Copying.step S)
      (fun s l _ => s.Untorn (fromDatabase inputs tracked keys) l)
      (start (fromDatabase inputs tracked keys)) ls s)
    (hview : s.snapshot = some view) :
    ∃ R, view.runtime.currentRevision = R ∧
      (∃ ls₁ m ls₂, ls = ls₁ ++ .take :: ls₂ ∧
        Trans.run (Copying.step S) (start (fromDatabase inputs tracked keys)) ls₁ = some m ∧
          m.config.world.rev 0 = R) ∧
      (∀ kind ∈ inputs, ∀ key,
        view.inputs ⟨kind, key⟩ = latest (upTo R s.changes) ⟨kind, key⟩) ∧
      (∀ ls₁ m ls₂, Trans.run (Copying.step S) (start (fromDatabase inputs tracked keys)) ls₁ =
          some m → Trans.run (Copying.step S) m ls₂ = some s → m.config.world.rev 0 = R →
        (∀ r, ¬ m.config.Moved r) → ∀ kind ∈ inputs, ∀ key,
          view.inputs ⟨kind, key⟩ = m.config.world.inputs 0 ⟨kind, key⟩) ∧
      (∀ kind ∈ inputs, ∀ key e, view.inputs ⟨kind, key⟩ = some e → e.changedAt ≤ R) ∧
      (∀ q rec, (view.cells q).state = .ready rec → rec.verifiedAt ≤ R) := by
  obtain ⟨hrem, hhead, hin, hcells⟩ := snapshot_eq_some hview
  obtain ⟨hdated, hcut⟩ := cut_of_run (h.mono fun _ _ _ => And.left)
  have hcellscut : s.CellsCut ∧ s.config.Verified :=
    h.invariant (I := fun s => s.CellsCut ∧ s.config.Verified) ⟨cellsCut_start _, verified_init⟩
      fun m l m' ⟨hc, hv⟩ hl hok => hc.step hv hl hok.2
  have hmem : view.runtime.currentRevision ∈ s.revisions := List.mem_of_head? hhead
  have hslots : ∀ kind ∈ inputs, ∀ key, view.inputs ⟨kind, key⟩ =
      latest (upTo view.runtime.currentRevision s.changes) ⟨kind, key⟩ := by
    intro kind hkind key
    rw [hin]
    refine hcut.read ⟨kind, key⟩ ?_ ?_ _ hmem
    · rw [hrem]
      exact List.not_mem_nil
    · refine List.mem_cons_of_mem _ (List.mem_append_left _ ?_)
      exact List.mem_map_of_mem hkind
  refine ⟨_, rfl, ?_, hslots, ?_, ?_, fun q rec hrec => ?_⟩
  · rcases revision_was_current h with ⟨hrem', -⟩ | ⟨ls₁, m, ls₂, hls, h₁, -, -, hm⟩
    · rw [hrem] at hrem'
      cases hrem'
    · refine ⟨ls₁, m, ls₂, hls, h₁.run, ?_⟩
      rw [hhead] at hm
      exact (Option.some.inj hm).symm
  · intro ls₁ m ls₂ h₁ h₂ hR hsettled kind hkind key
    have hm : m.Dated := (Trans.Steps.of_run h₁).invariant (dated_start _)
      fun _ _ _ hd hl _ => hd.step hl
    rw [hslots kind hkind key, ← hR, latest_upTo_of_settled hm hsettled (.of_run h₂)]
  · intro kind hkind key e he
    rw [hslots kind hkind key] at he
    exact (mem_upTo.mp (mem_of_latest he)).2
  · rw [hcells] at hrec
    exact hcellscut.1.read q rec hrec _ hmem

namespace Torn

open Cancellation (x nested schema)

def ops : List CopyOp := Copying.fromDatabase [0] [1] fun _ => [[]]

/-- A `set` comes between the read of the revision and the copy of its ingredient. -/
def overtaken : List (CopyLabel Nat) :=
  [.base (.mutate 0 x (some 1)), .take, .base (.mutate 0 x (some 2)), .take, .take]

/-- A `set` moves the revision before the slots are copied, and stores its entry after that. -/
def inTime : List (CopyLabel Nat) :=
  [.base (.mutate 0 x (some 1)), .take, .base (.begin 0 x (some 2)), .base (.advance 0),
    .base (.advance 0), .take, .base (.advance 0), .base (.advance 0), .take]

/-- A check of what is asked of a step, where no access takes one. -/
def check (s : Copying Nat) : CopyLabel Nat → Bool
  | .base (.step _) => false
  | l => s.checkStores l

theorem untorn_of_check {s : Copying Nat} {l : CopyLabel Nat} (h : check s l = true) :
    s.Untorn ops l := by
  cases l with
  | take => exact ⟨trivial, trivial⟩
  | base l =>
    cases l with
    | step t => cases h
    | _ => exact ⟨Copying.storesTimely_of_check ops h, trivial⟩

end Torn

open Copying Torn Cancellation in
/-- **A `set` tears the snapshot**: its revision is 1, and it has the entry of revision 2. -/
theorem snapshot_is_torn :
    ¬ ∀ ls s (view : View Nat), Trans.run (Copying.step schema) (start ops) ls = some s →
      s.snapshot = some view →
        ∀ k e, view.inputs k = some e → e.changedAt ≤ view.runtime.currentRevision := by
  intro h
  obtain ⟨s, hs⟩ : ∃ s, Trans.run (Copying.step schema) (start ops) overtaken = some s :=
    ⟨_, rfl⟩
  obtain ⟨view, hview⟩ : ∃ view, s.snapshot = some view := by
    cases hs
    exact ⟨_, rfl⟩
  have hx : view.inputs x = some ⟨some 2, 2⟩ ∧ view.runtime.currentRevision = 1 := by
    cases hs
    cases hview
    exact ⟨rfl, rfl⟩
  have hle := h overtaken s view hs hview x _ hx.1
  rw [hx.2] at hle
  exact absurd hle (by decide)

open Copying Torn Cancellation in
/-- A snapshot whose slots are copied before the entry is stored has the old one. -/
theorem snapshot_before_store :
    ∃ s view, Trans.Steps (Copying.step schema) (fun s l _ => s.Untorn ops l) (start ops) inTime s ∧
      s.snapshot = some view ∧ view.runtime.currentRevision = 1 ∧
        ∀ e, view.inputs x = some e → e.changedAt ≤ 1 := by
  obtain ⟨s, hs⟩ : ∃ s, Trans.run (fun s l => if check s l then Copying.step schema s l else none)
      (start ops) inTime = some s := ⟨_, rfl⟩
  have hsteps : Trans.Steps (Copying.step schema) (fun s l _ => s.Untorn ops l) (start ops)
      inTime s :=
    (Trans.Steps.of_checked_run check hs).mono fun _ _ _ hok => untorn_of_check hok.2
  obtain ⟨view, hview⟩ : ∃ view, s.snapshot = some view := by
    cases hs
    exact ⟨_, rfl⟩
  have hrev : view.runtime.currentRevision = 1 := by
    cases hs
    cases hview
    rfl
  obtain ⟨R, hR, -, -, -, hle, -⟩ := snapshot_is_one_cut hsteps hview
  refine ⟨s, view, hsteps, hview, hrev, fun e he => ?_⟩
  rw [← hrev, hR]
  exact hle 0 (List.mem_singleton.mpr rfl) [] e he

end Picante

/-
# A snapshot that was changed

A snapshot whose inputs are changed before anything is computed on it goes its own way.  What it
has at that time are copies of the cells of the database, with a past that is the database's: until
the change it is the copy of a database that was put in another place (`World.solo`), and with the
change both go on from there (`Untouched.changed`).

* `changed_snapshot_is_isolated` -- from then on what an access on it returns is what the evaluation
  without a cache returns over its slots, no access follows another, and nothing that is stored on
  it is stored where another view looks.
-/
import Picante.Coherence.Cut
import Picante.Divergence.Isolated
import Picante.Isolation
import Picante.Races

namespace Picante

open Config ReadProg

variable {V : Type}

/-! ## 1. A snapshot that nobody has touched -/

/-- The operation is one on view `s`. -/
def Label.On (s : ViewId) : Label V → Prop
  | .spawn view _ _ | .mutate view _ _ | .begin view _ _ | .bump view => view = s
  | _ => False

/-- Snapshot `s` of a sequential run has been neither accessed nor changed. -/
structure Unused (s : ViewId) (c : Config V) : Prop where
  scopes : c.world.Scoped
  fresh : (c.world.views s).runtime.divergesNow
  made : s < c.world.viewCount
  alone : Alone c
  away : ∀ t, c.Pending t → (c.tasks t).view ≠ s

/-- And it is the copy of a database on which everything is in order. -/
structure Untouched (T : Spec V) (s : ViewId) (c : Config V) : Prop extends Unused s c where
  copy : ∃ m p, T.Upright p m ∧ m.Idle ∧ c.world.Copies s m.world ∧
    ∀ k, m.world.shared (m.world.scope 0) k = none

section untouched

variable [DecidableEq V] {T : Spec V} {s : ViewId} {c c' : Config V} {w w' : World V} {t : TaskId}

theorem World.views_mutateWorld (w : World V) {i : ViewId} (hs : s ≠ i) (k : DynKey)
    (value : Option V) : (mutateWorld w i k value).views s = w.views s := by
  unfold mutateWorld
  split
  · rfl
  · simp [World.storeInput, World.markDivergent, World.modifyRuntime, World.modifyView,
      Function.update_of_ne hs]

omit [DecidableEq V] in
/-- The view is as it was, and so is its copy. -/
theorem World.Copies.of_view {m : World V} (h : w.Copies s m) (hview : w'.views s = w.views s)
    (hinterned : w'.interned = w.interned) (hgrow : w.Grows w') : w'.Copies s m where
  rev := by
    unfold World.rev at *
    rw [hview]
    exact h.rev
  inputs := by
    unfold World.inputs at *
    rw [hview]
    exact h.inputs
  cell k := by
    have hcell := h.cell k
    unfold World.cell at *
    rw [hview]
    exact hcell
  interned := h.interned.trans hinterned.symm
  missing i k hk := hgrow.mem (h.missing i k hk)

/-- **What happens elsewhere** leaves the snapshot as it is. -/
theorem Unused.elsewhere {S : Schema V} (h : Unused s c) {l : Label V}
    (hs : step S c l = some c') (hseq : Sequential c l c') (hl : ¬ l.On s) :
    Unused s c' ∧ c'.world.views s = c.world.views s := by
  have hgrow := grows_step hs
  have hscoped := scoped_step h.scopes hs
  have halone := h.alone.step hs hseq
  have hmade := Nat.lt_of_lt_of_le h.made hgrow.viewCount
  have still : c'.world.views s = c.world.views s →
      (∀ t, c'.Pending t → (c'.tasks t).view ≠ s) →
        Unused s c' ∧ c'.world.views s = c.world.views s := fun hview haway =>
    ⟨⟨hscoped, hview ▸ h.fresh, hmade, halone, haway⟩, hview⟩
  rcases hseq with ⟨t, rfl⟩ | ⟨hidle, hop⟩
  · have hts := taskStep_of_step hs
    obtain ⟨hpend, hview, -, -⟩ := hts.same_access
    refine still (hts.views_other (h.away t hpend).symm) fun t' ht' => ?_
    rcases eq_or_ne t' t with rfl | hne
    · rw [hview]
      exact h.away t' hpend
    · rw [hts.tasks_ne hne]
      exact h.away t' ((hts.pending_ne hne).mp ht')
  · cases l with
    | spawn view key want =>
      simp only [Config.step] at hs
      split at hs
      · cases hs
        refine still rfl fun t ht => ?_
        unfold Pending at ht
        rcases eq_or_ne t c.taskCount with rfl | hne
        · simp only [Function.update_self]
          exact hl
        · simp only [Function.update_of_ne hne] at ht ⊢
          exact h.away t ht
      · cases hs
    | mutate view key value =>
      simp only [Config.step] at hs
      split at hs <;> cases hs
      exact still (World.views_mutateWorld _ (Ne.symm hl) key value) h.away
    | intern kind value =>
      cases hs
      exact still rfl h.away
    | bump view =>
      simp only [Config.step] at hs
      split at hs <;> cases hs
      exact still (Function.update_of_ne (Ne.symm hl) ..) h.away
    | snapshot =>
      cases hs
      exact still (Function.update_of_ne (Nat.ne_of_lt h.made) ..) h.away
    | step t | drop t | «begin» view key value | advance n => cases hop

/-- Nothing but an operation that interns changes the interning tables. -/
theorem interned_of_sequential {S : Schema V} {l : Label V} (hs : step S c l = some c')
    (hseq : Sequential c l c') :
    c'.world.interned = c.world.interned ∨ ∃ kind value, l = .intern kind value := by
  rcases hseq with ⟨t, rfl⟩ | ⟨-, hop⟩
  · exact .inl (taskStep_of_step hs).fixed.interned
  · cases l with
    | intern kind value => exact .inr ⟨kind, value, rfl⟩
    | spawn view key want | bump view =>
      simp only [Config.step] at hs
      split at hs <;> cases hs
      exact .inl rfl
    | mutate view key value =>
      simp only [Config.step] at hs
      split at hs <;> cases hs
      exact .inl (World.interned_mutateWorld ..)
    | snapshot =>
      cases hs
      exact .inl rfl
    | step t | drop t | «begin» view key value | advance n => cases hop

/-- The database that it is the copy of interns as well. -/
theorem Untouched.elsewhere (hT : T.Fits) (hacc : T.account = .failures) (h : Untouched T s c)
    {l : Label V} (hs : step T.schema c l = some c') (hseq : Sequential c l c') (hl : ¬ l.On s)
    (hmissing : ∀ e ∈ c'.world.log, e.isMissing = false) : Untouched T s c' := by
  obtain ⟨m, p, hup, hidle', hm, hshared⟩ := h.copy
  obtain ⟨hunused, hview⟩ := h.toUnused.elsewhere hs hseq hl
  refine ⟨hunused, ?_⟩
  rcases interned_of_sequential hs hseq with hinterned | ⟨kind, value, rfl⟩
  · exact ⟨m, p, hup, hidle', hm.of_view hview hinterned (grows_step hs), hshared⟩
  · cases hs
    have hs' : Config.step T.schema m (.intern kind value) =
        some { m with world := m.world.intern kind value } := rfl
    have hm' := hm.intern kind value
    obtain ⟨p', hup'⟩ := hup.step hT hacc hs' hidle' rfl trivial fun e he => by
      cases e with
      | missing i k =>
        have hno := hmissing _ (hm'.missing i k he)
        cases hno
      | revalidated _ _ _ _ _ | cycle _ _ _ => rfl
    exact ⟨_, p', hup', hidle', hm', hshared⟩

/-- **The first change** gives the snapshot a scope of its own. -/
theorem Unused.changed {S : Schema V} (h : Unused s c) (hidle : c.Idle) {k : DynKey}
    {value : Option V} (hs : step S c (.mutate s k value) = some c')
    (hchange : noChange (c.world.inputs s) k value = false) :
    Diverged s c.world.nextRuntimeId c' := by
  have halone := h.alone.step hs (.inr ⟨hidle, rfl⟩)
  have hscoped := scoped_step h.scopes hs
  have hgrow := grows_step hs
  simp only [step] at hs
  split at hs
  · cases hs
    have hscope := World.scope_mutateWorld h.scopes hchange s
    rw [if_pos ⟨rfl, h.fresh⟩] at hscope
    refine ⟨hscoped, hscope, Nat.ne_of_gt h.scopes.next,
      Nat.lt_of_lt_of_le h.made hgrow.viewCount, halone, fun t => ?_⟩
    show ∀ a ∈ (c.tasks t).stack, a.pc.joins = false
    rw [not_not.mp (hidle t)]
    exact fun a ha => absurd ha List.not_mem_nil
  · cases hs

/-- And what it has the copy of goes on from there. -/
theorem Untouched.changed (hT : T.Fits) (hacc : T.account = .failures) (h : Untouched T s c)
    (hidle : c.Idle) {k : DynKey} {value : Option V}
    (hs : step T.schema c (.mutate s k value) = some c')
    (hchange : noChange (c.world.inputs s) k value = false)
    (hmissing : ∀ e ∈ c'.world.log, e.isMissing = false) :
    Mirrored T s c.world.nextRuntimeId c' := by
  obtain ⟨m, p, hup, hidle', hm, hshared⟩ := h.copy
  have hdiverged := h.toUnused.changed hidle hs hchange
  simp only [step] at hs
  split at hs
  · next hv =>
    cases hs
    have hscope : (mutateWorld c.world s k value).scope s = c.world.nextRuntimeId := hdiverged.scope
    have hscope' : (mutateWorld m.world 0 k value).scope 0 = m.world.scope 0 := by
      rw [(hup.consistent.world.mutate k value).1.family 0, World.origin_mutateWorld,
        hup.consistent.world.family 0]
    have hw : (mutateWorld c.world s k value).Mirrors s (mutateWorld m.world 0 k value) := by
      refine ⟨hm.mutate k value, fun k' => ?_⟩
      rw [hscope, hscope', World.shared_mutateWorld, World.shared_mutateWorld, hshared,
        h.scopes.unused _ k' (Nat.le_refl _)]
      rfl
    have hs' : step T.schema m (.mutate 0 k value) =
        some { m with world := mutateWorld m.world 0 k value } := by
      simp only [step]
      exact if_pos ⟨hup.consistent.world.nonempty, hv.2⟩
    have hmirrors : ∀ n, Config.Mirrors s { c with world := mutateWorld c.world s k value }
        { m with world := mutateWorld m.world 0 k value, taskCount := n } := fun n =>
      ⟨hw, fun t ht => absurd ht (hidle t), fun t ht => absurd ht (hidle' t)⟩
    obtain ⟨p', hup'⟩ := hup.step hT hacc hs' hidle' rfl rfl
      ((hmirrors m.taskCount).no_missing hmissing)
    exact ⟨hdiverged, { m with world := mutateWorld m.world 0 k value, taskCount := c.taskCount },
      p',
      ⟨{ hup'.consistent with }, hup'.upToDate, { hup'.calm with }, { hup'.native with },
        { hup'.alone with led := { hup'.alone.led with
          unused := fun t _ => not_not.mp (hidle' t) } }⟩, hmirrors c.taskCount, rfl⟩
  · cases hs

end untouched

/-! ## 2. A database that was put in another place -/

/-- What a snapshot has of the database, as a database that knows nobody. -/
def World.solo (w : World V) : World V :=
  { (World.init : World V) with
    views := Function.update (World.init : World V).views 0
      { runtime := (Runtime.new 1).setCurrentRevision (w.rev 0)
        inputs := w.inputs 0
        cells := fun k => (w.cell 0 k).snapshot }
    interned := w.interned }

section solo

variable {T : Spec V} {p : Past V} {w : World V}

theorem World.cell_solo (w : World V) (k : DynKey) : w.solo.cell 0 k = (w.cell 0 k).snapshot := rfl

theorem World.cutFrom_solo (hfresh : ∀ kind, (w.interned kind).Fresh) : w.CutFrom w.solo where
  viewCount := rfl
  origin := rfl
  scope i := by
    unfold solo scope
    rcases eq_or_ne i 0 with rfl | hi
    · rfl
    · simp only [Function.update_of_ne hi]
      rfl
  rev := rfl
  blank i hi := Function.update_of_ne hi ..
  inputs k e he := he
  ready q R hs := ErasedCell.ready_of_snapshot hs
  poisoned q e ver hs := ErasedCell.not_poisoned_of_snapshot hs
  interned kind id v hv := hv
  fresh := hfresh
  shared _ _ := rfl
  registry := rfl
  log := rfl

/-- All that a record can stand on has come along. -/
theorem World.intact_solo (T : Spec V) (w : World V) : w.Intact T w.solo := by
  have hretains : ∀ d, w.Retains T.schema w.solo d := by
    intro d
    unfold Retains
    cases T.schema.sectionType d.kind <;> first | rfl | trivial
  exact ⟨fun _ _ _ d _ => hretains d, fun _ _ _ _ d _ => hretains d⟩

/-- A record of the database's own is left as it is. -/
theorem World.Native.own_snapshot (hn : w.Native) (k : DynKey) :
    (w.cell 0 k).snapshot.own = (w.cell 0 k).snapshot := by
  cases hs : (w.cell 0 k).state with
  | ready R =>
    have hf : R.foreign = false := (hn.ready (q := k) hs).foreign
    simp only [ErasedCell.snapshot, hs, ErasedCell.own, ErasedState.own, ReadyRecord.own, ← hf]
  | vacant | running _ _ | poisoned _ _ =>
    simp only [ErasedCell.snapshot, hs, ErasedCell.new, ErasedCell.own, ErasedState.own]

/-- **A new snapshot is the copy of the database that was put in another place.** -/
theorem World.copies_solo (hn : w.Native) : w.snapshot.Copies w.viewCount w.solo where
  rev := by rw [World.rev_snapshot, if_pos rfl]; rfl
  inputs := by rw [World.inputs_snapshot, if_pos rfl]; rfl
  cell k := by rw [World.cell_solo, World.cell_snapshot, if_pos rfl, hn.own_snapshot]
  interned := rfl
  missing i k hk := absurd hk List.not_mem_nil

/-- And it has not changed yet. -/
theorem World.divergesNow_snapshot (w : World V) :
    (w.snapshot.views w.viewCount).runtime.divergesNow := by
  simp only [snapshot, Function.update_self]
  rfl

end solo

/-! ## 3. Runs of a changed snapshot -/

section runs

variable [DecidableEq V] {S : Schema V} {body : DynKey → Query V} {fuel : Nat} {ops : List (Op V)}
  {c₀ c₁ : Config V}

/-- **A new snapshot of a database that was used alone.** -/
theorem unused_snapshot (h : runOps S fuel init ops = some c₀)
    (hs : step S c₀ .snapshot = some c₁) :
    Unused c₀.world.viewCount c₁ := by
  obtain ⟨ls, hrun, hidle⟩ := runOps_steps (P := fun _ => True) h idle_init fun _ _ => trivial
  have hscoped : c₀.world.Scoped := hrun.invariant scoped_init fun m l m' hm hl _ =>
    scoped_step hm hl
  have halone : Alone c₀ := hrun.invariant alone_init fun m l m' hm hl hseq =>
    hm.step hl hseq.sequential
  have hscoped' := scoped_step hscoped hs
  have halone' := halone.step hs (.inr ⟨hidle, rfl⟩)
  cases hs
  exact ⟨hscoped', c₀.world.divergesNow_snapshot, Nat.lt_succ_self _, halone',
    fun t ht => absurd ht (hidle t)⟩

/-- It is the copy of the database that was put in another place. -/
theorem untouched_snapshot (hT : Spec.Fits ⟨S, body, .values⟩)
    (h : runOps S fuel init ops = some c₀) (hops : ∀ op ∈ ops, op.OnDatabase)
    (hs : step S c₀ .snapshot = some c₁) :
    Untouched ⟨S, body, .failures⟩ c₀.world.viewCount c₁ := by
  refine ⟨unused_snapshot h hs, ?_⟩
  obtain ⟨ls, hrun, -⟩ := runOps_steps (P := Label.OnDatabase) h idle_init hops
  obtain ⟨horderly, -, hnative⟩ := orderly_of_native .values hrun calm_init native_init
    fun e _ hf => allows_values hf
  obtain ⟨p, hext, hp, -⟩ := Spec.consistent_run hT (Spec.consistent_init _) Spec.upToDate_init
    horderly
  have hcut : c₀.world.CutFrom c₀.world.solo := World.cutFrom_solo hp.world.interned
  have hcoherent := coherent_cut (hT.suits nofun) hp.world hcut (World.intact_solo _ _) hext
    .failures nofun
  have hidle : Idle { (init : Config V) with world := c₀.world.solo } := fun t => idle_init t
  cases hs
  exact ⟨{ init with world := c₀.world.solo }, _,
    { consistent := ⟨hcoherent.settle.1, fun t ht => absurd ht (hidle t), fun t => trivial, nofun⟩
      upToDate := fun _ => rfl
      calm := .of_idle hidle rfl
      native := ⟨hcut.native hnative.world, fun t ht => absurd ht (hidle t),
        fun t b hb => absurd hb List.not_mem_nil⟩
      alone := ⟨hidle.single, { led_init with }, fun _ => trivial⟩ },
      hidle, World.copies_solo hnative.world, fun _ => rfl⟩

/-- Nothing that is computed on view `s` from `c₀` on is adopted by another view: in a sequential
run no access follows another, and what a step on `s` does in the shared cache is not where any
other view looks, then or later. -/
structure KeepsApart (S : Schema V) (s : ViewId) (c₀ : Config V) : Prop where
  unjoined : ∀ {ls c}, Trans.Steps (step S) Sequential c₀ ls c →
    ∀ t, ∀ a ∈ (c.tasks t).stack, a.pc.joins = false
  apart : ∀ {ls m t m' ls' c}, Trans.Steps (step S) Sequential c₀ ls m →
    step S m (.step t) = some m' → (m.tasks t).view = s →
      Trans.Steps (step S) Sequential m' ls' c →
        ∀ j, j ≠ s → m'.world.shared (c.world.scope j) = m.world.shared (c.world.scope j)

/-- **A snapshot with a scope of its own keeps to itself.** -/
theorem Diverged.keepsApart {s : ViewId} {σ : RuntimeId} (h : Diverged s σ c₀) :
    KeepsApart S s c₀ := by
  have hrun : ∀ {m ls c}, Diverged s σ m → Trans.Steps (Config.step S) Sequential m ls c →
      Diverged s σ c :=
        fun hm hls => hls.invariant hm fun _ _ _ hm hl hseq => Diverged.step hm hl hseq
  constructor
  · exact fun hls => (hrun h hls).unjoined
  · intro ls m t m' ls' c hls hstep hview hls' j hj
    have hm := hrun h hls
    have hc := hrun (hm.step hstep (.inl ⟨t, rfl⟩)) hls'
    refine (taskStep_of_step hstep).stores.2 _ ?_
    rw [hview, hm.scope, ← hc.scope]
    exact hc.scopes.ne (hc.scope ▸ hc.own) hj

/-- **A snapshot that was changed is isolated.**  A database was used alone; then the snapshot was
taken, and changed before any access on it.  Nothing that is computed on the snapshot from then on
is adopted by another view, and what an access on it returns, after any further operations on any
views, is what the evaluation without a cache returns over its slots. -/
theorem changed_snapshot_is_isolated {ops₀ ops₁ : List (Op V)} {c₂ : Config V} {k : DynKey}
    {value : Option V} (hdet : ∀ n q, S.compute n q = body q) (hprop : ∀ q, (body q).Propagates)
    (h₀ : runOps S fuel init ops₀ = some c₀) (hops₀ : ∀ op ∈ ops₀, op.OnDatabase)
    (h₁ : runOps S fuel c₀ (.snapshot :: ops₁) = some c₁)
    (hops₁ : ∀ op ∈ ops₁, ¬ op.label.On c₀.world.viewCount)
    (h₂ : runOp S fuel c₁ (.mutate c₀.world.viewCount k value) = some c₂)
    (hchange : noChange (c₁.world.inputs c₀.world.viewCount) k value = false) :
    KeepsApart S c₀.world.viewCount c₂ ∧
      ∀ (fuel : Nat) (ops : List (Op V)) (q : DynKey) (want : Bool) (c : Config V),
        runOps S fuel c₂ (ops ++ [.access c₀.world.viewCount q want]) = some c →
          (∀ e ∈ c.world.log, e.isMissing = false) →
            ∃ r, c.lastResult = some r ∧
              Agrees S body c.world ((c.world.inputs c₀.world.viewCount).get) q r := by
  have hT : Spec.Fits ⟨S, body, .failures⟩ := ⟨hdet, fun _ => hprop⟩
  obtain ⟨-, -, hidle₀⟩ := runOps_steps (P := fun _ => True) h₀ idle_init fun _ _ => trivial
  have hsnap : step S c₀ .snapshot = some { c₀ with world := c₀.world.snapshot } := rfl
  obtain ⟨ls₁, hls₁, hidle₁⟩ := runOps_steps (P := fun l => ¬ l.On c₀.world.viewCount)
    (c := { c₀ with world := c₀.world.snapshot }) h₁ hidle₀ hops₁
  obtain ⟨-, -, hidle₂⟩ := runOp_steps (P := fun _ => True) h₂ hidle₁ trivial
  have away : ∀ {m l} {m' : Config V}, SequentialIn (fun l => ¬ l.On c₀.world.viewCount) m l m' →
      ¬ Label.On c₀.world.viewCount l := by
    rintro m l m' (⟨t, rfl⟩ | ⟨-, -, hl⟩)
    · exact id
    · exact hl
  have hunused : Unused c₀.world.viewCount c₁ := hls₁.invariant (unused_snapshot h₀ hsnap)
    fun m l m' hm hl hseq => (hm.elsewhere hl hseq.sequential (away hseq)).1
  refine ⟨(hunused.changed hidle₁ h₂ hchange).keepsApart, fun fuel ops q want c h hmissing => ?_⟩
  obtain ⟨ls, m, t, hrun, hstep, hview, hkey, hcount, hidle⟩ :=
    runOps_access (P := fun _ => True) h hidle₂ (fun _ _ => trivial) trivial
  -- the logs of the earlier states are part of the last one
  have hgrow := grows_step hstep
  have hend : ∀ e ∈ m.world.log, e.isMissing = false := fun e he => hmissing e (hgrow.mem he)
  have hsound := sound_of_log hrun hend
  have hgrow₂ : c₂.world.Grows m.world := hrun.invariant (I := fun m => c₂.world.Grows m.world)
    (.refl _) fun _ _ _ hm hl _ => hm.trans (grows_step hl)
  have hend₂ : ∀ e ∈ c₂.world.log, e.isMissing = false := fun e he => hend e (hgrow₂.mem he)
  have hmutate : step S c₁ (.mutate c₀.world.viewCount k value) = some c₂ := h₂
  have hgrow₁ := grows_step hmutate
  have huntouched : Untouched ⟨S, body, .failures⟩ c₀.world.viewCount c₁ :=
    (sound_of_log hls₁ fun e he => hend₂ e (hgrow₁.mem he)).invariant
      (untouched_snapshot ⟨hdet, fun _ => hprop⟩ h₀ hops₀ hsnap)
      fun m l m' hm hl ⟨hseq, hmiss⟩ => hm.elsewhere hT rfl hl hseq.sequential (away hseq) hmiss
  have hmirrored := (huntouched.changed hT rfl hidle₁ h₂ hchange hend₂).run hT rfl hsound
  obtain ⟨r, hr, hret⟩ := hmirrored.returns hT hstep hview (hidle t)
  refine ⟨r, ?_, ?_⟩
  · unfold lastResult
    rw [hcount]
    exact hr
  · rw [hkey] at hret
    exact hret.agrees hprop (derived_of_access h)

end runs

open Isolation in
open Cancellation (x) in
/-- The database goes on from `x = 1` to `x = 2`, and another snapshot to `x = 3`; the one in
between, changed to `x = 5`, computes from the 5. -/
theorem snapshot_goes_its_own_way :
    ∃ c₀ c₁ c₂ c, runOps schema 60 init [.mutate 0 x (some 1), .access 0 plusTen true] = some c₀ ∧
      runOps schema 60 c₀ (.snapshot :: [.snapshot]) = some c₁ ∧
        runOp schema 60 c₁ (.mutate c₀.world.viewCount x (some 5)) = some c₂ ∧
          runOps schema 60 c₂ ([.mutate 0 x (some 2), .access 0 plusTen true,
            .mutate 2 x (some 3), .access 2 plusTen true] ++
              [.access c₀.world.viewCount plusTen true]) = some c ∧
            KeepsApart schema c₀.world.viewCount c₂ ∧
              ∃ r, c.lastResult = some r ∧
                Agrees schema body c.world ((c.world.inputs c₀.world.viewCount).get) plusTen r := by
  have hrun : (runOps schema 60 init [.mutate 0 x (some 1), .access 0 plusTen true]).any (fun c₀ =>
      (runOps schema 60 c₀ (.snapshot :: [.snapshot])).any fun c₁ =>
        noChange (c₁.world.inputs c₀.world.viewCount) x (some 5) = false ∧
          (runOp schema 60 c₁ (.mutate c₀.world.viewCount x (some 5))).any fun c₂ =>
            (runOps schema 60 c₂ ([.mutate 0 x (some 2), .access 0 plusTen true,
              .mutate 2 x (some 3), .access 2 plusTen true] ++
                [.access c₀.world.viewCount plusTen true])).any fun c =>
                  ∀ e ∈ c.world.log, e.isMissing = false) := by decide +kernel
  obtain ⟨c₀, hc₀, hfirst⟩ := (Option.any_eq_true ..).mp hrun
  obtain ⟨c₁, hc₁, hsecond⟩ := (Option.any_eq_true ..).mp hfirst
  obtain ⟨hchange, hthird⟩ := of_decide_eq_true hsecond
  obtain ⟨c₂, hc₂, hlast⟩ := (Option.any_eq_true ..).mp hthird
  obtain ⟨c, hc, hmissing⟩ := (Option.any_eq_true ..).mp hlast
  obtain ⟨hapart, hright⟩ := changed_snapshot_is_isolated (fun _ _ => rfl) body_propagates hc₀
    (fun op hop => by
      simp only [List.mem_cons, List.not_mem_nil, or_false] at hop
      rcases hop with rfl | rfl <;> rfl)
    hc₁ (fun op hop => List.mem_singleton.mp hop ▸ id) hc₂ hchange
  exact ⟨c₀, c₁, c₂, c, hc₀, hc₁, hc₂, hc, hapart,
    hright 60 _ plusTen true c hc (of_decide_eq_true hmissing)⟩

end Picante

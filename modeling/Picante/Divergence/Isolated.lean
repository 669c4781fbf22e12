/-
# A snapshot that goes its own way

A snapshot whose inputs have been changed has a cache scope of its own.  While nothing is at hand
under that scope but what it has stored there itself, it is the copy of a database of its own, its
mirror (`Mirror`), on which everything is in order.

* `Diverged.step` -- the scope stays its own, and in a sequential run no access follows another.
* `Mirrored.run` -- the mirror stays in order, whatever happens on the other views.
* `Mirrored.returns` -- so what an access on the snapshot returns is right over its slots.
-/
import Picante.Consistency
import Picante.Divergence.Mirror

namespace Picante

open Config ReadProg

variable {V : Type}

/-! ## 1. A database on which everything is in order -/

/-- Everything is in order, and nothing foreign has been met. -/
structure Spec.Upright (T : Spec V) (p : Past V) (m : Config V) : Prop where
  consistent : T.Consistent p m
  upToDate : Spec.UpToDate p m
  calm : Calm m
  native : Native m
  alone : Alone m

namespace Spec.Upright

variable {T : Spec V} {p : Past V} {m m' : Config V} {t : TaskId}

/-- Tasks may be counted that are elsewhere. -/
theorem counted (h : T.Upright p m) : T.Upright p { m with taskCount := m.taskCount + 1 } where
  consistent := { h.consistent with }
  upToDate := h.upToDate
  calm := { h.calm with }
  native := { h.native with }
  alone := { h.alone with
    led := { h.alone.led with unused := fun t ht => h.alone.led.unused t (Nat.le_of_succ_le ht) } }

theorem allows (hacc : T.account = .failures) (hn : Native m)
    (hmissing : ∀ e ∈ m.world.log, e.isMissing = false) : ∀ e ∈ m.world.log, Allows T.account e :=
  fun e he => hacc ▸ allows_native (hn.world.log e he) (hmissing e he)

variable [DecidableEq V]

/-- **A step of a task** leaves everything in order. -/
theorem taskStep (hT : T.Fits) (hacc : T.account = .failures) (h : T.Upright p m)
    (hs : TaskStep T.schema m t m') (hmissing : ∀ e ∈ m'.world.log, e.isMissing = false) :
    ∃ p', T.Upright p' m' := by
  have hnative := h.native.taskStep hs
  have hseq : SequentialIn Label.OnDatabase m (.step t) m' := .inl ⟨t, rfl⟩
  have hask : m.Asked T.account (.step t) :=
    h.calm.asked hseq (fun _ => Label.OnDatabase.primary) fun _ => h.native.world.leaders
  obtain ⟨p', -, hp'⟩ := h.consistent.taskStep hT h.upToDate hask hs (allows hacc hnative hmissing)
  obtain ⟨p'', -, hp'', hup⟩ := hp'.settle
  exact ⟨p'', hp'', hup, h.calm.taskStep hs, hnative, h.alone.taskStep hs⟩

/-- **An operation** leaves everything in order, and changes no log. -/
theorem step (hT : T.Fits) (hacc : T.account = .failures) (h : T.Upright p m) {l : Label V}
    (hs : step T.schema m l = some m') (hidle : m.Idle) (hop : l.isOperation)
    (hl : l.OnDatabase) (hmissing : ∀ e ∈ m'.world.log, e.isMissing = false) :
    ∃ p', T.Upright p' m' := by
  have hnative := h.native.step hs hl
  have hseq : SequentialIn Label.OnDatabase m l m' := .inr ⟨hidle, hop, hl⟩
  have hask : m.Asked T.account l :=
    h.calm.asked hseq (fun _ => Label.OnDatabase.primary) fun _ => h.native.world.leaders
  obtain ⟨p', -, hp', hup⟩ := consistent_step hT h.consistent h.upToDate hs
    ⟨hask, allows hacc hnative hmissing⟩
  exact ⟨p', hp', hup, h.calm.step hs hseq.sequential, hnative, h.alone.step hs hseq.sequential⟩

end Spec.Upright

/-! ## 2. Changes of the snapshot -/

section changes

variable [DecidableEq V] {w m : World V} {s : ViewId}

omit [DecidableEq V] in
/-- A view with a scope of its own has diverged. -/
theorem World.Scoped.diverged (h : w.Scoped) (hs : w.scope s ≠ 1) :
    (w.views s).runtime.divergesNow = false := by
  have hfamily : (w.views s).runtime.id = 1 := h.family s
  unfold World.scope Runtime.cacheScopeId at hs
  unfold Runtime.divergesNow
  by_cases hd : (w.views s).runtime.divergentScope = 0
  · simp [hd, hfamily] at hs
  · simp [hd]

/-- A further change leaves its scope as it is. -/
theorem World.Scoped.scope_changed (h : w.Scoped) (hs : w.scope s ≠ 1) (i : ViewId) (k : DynKey)
    (value : Option V) : (mutateWorld w i k value).scope s = w.scope s := by
  cases hchange : noChange (w.inputs i) k value with
  | true =>
    unfold mutateWorld
    rw [if_pos hchange]
  | false =>
    rw [World.scope_mutateWorld h hchange, if_neg]
    rintro ⟨rfl, hd⟩
    rw [h.diverged hs] at hd
    cases hd

theorem World.origin_mutateWorld (w : World V) (i : ViewId) (k : DynKey) (value : Option V)
    (j : ViewId) : (mutateWorld w i k value).origin j = w.origin j := by
  unfold mutateWorld
  split
  · rfl
  · rw [World.origin_storeInput, World.origin_markDivergent, World.origin_modifyRuntime]
    split
    · next h => subst h; rfl
    · rfl

/-- **A change of the snapshot**, mirrored. -/
theorem World.Mirrors.mutate (h : w.Mirrors s m) (hscoped : w.Scoped) (hs : w.scope s ≠ 1)
    (k : DynKey) (value : Option V) (hscope : (mutateWorld m 0 k value).scope 0 = m.scope 0) :
    (mutateWorld w s k value).Mirrors s (mutateWorld m 0 k value) :=
  h.of_copies (h.toCopies.mutate k value) (hscoped.scope_changed hs s k value) hscope
    (World.shared_mutateWorld ..) (World.shared_mutateWorld ..)

end changes

/-! ## 3. A snapshot that goes its own way -/

/-- Snapshot `s` of a sequential run has the scope `σ` of its own, and no access follows another. -/
structure Diverged (s : ViewId) (σ : RuntimeId) (c : Config V) : Prop where
  scopes : c.world.Scoped
  scope : c.world.scope s = σ
  own : σ ≠ 1
  made : s < c.world.viewCount
  alone : Alone c
  unjoined : ∀ t, ∀ a ∈ (c.tasks t).stack, a.pc.joins = false

section diverged

variable [DecidableEq V] {S : Schema V} {s : ViewId} {σ : RuntimeId} {c c' : Config V} {t : TaskId}
  {w w' : World V} {view : ViewId} {task : TaskId} {below : List (Activation V)}
  {a a' : Activation V}

omit [DecidableEq V] in
theorem Touched.joins {src : Source V} {rest : List Dep} {r : PicanteResult Revision}
    (h : Touched w view a src rest r w' a') : a'.pc.joins = false := by
  cases h with
  | unchanged _ | failed => rfl
  | changed _ => exact joins_afterRevalidation ..

/-- An access does not come to follow another if nothing is filed for what it is about to lead. -/
theorem ActStep.joins (h : ActStep S w view task below a w' (.goto a')) (ha : a.pc.joins = false)
    (hfiled : ∀ prev, a.pc = .lead prev →
      w.registry.filed ⟨w.scope view, a.rev, a.key⟩ = none) : a'.pc.joins = false := by
  cases h with
  | follow hpc hf =>
    rw [hfiled _ hpc] at hf
    cases hf
  | followReset hpc | followListen hpc | followPark hpc | followDone hpc _ | followFailed hpc _
  | followCancelled hpc | followWake hpc =>
    rw [hpc] at ha
    cases ha
  | accept _ | unregistered _ _ => exact joins_afterRevalidation ..
  | touchInput _ _ ht | touchInterned _ _ _ ht => exact ht.joins
  | _ => rfl

/-- **No access follows another** in a sequential run. -/
theorem Alone.unjoined (halone : Alone c) (h : ∀ t, ∀ a ∈ (c.tasks t).stack, a.pc.joins = false)
    (hs : TaskStep S c t c') : ∀ t, ∀ a ∈ (c'.tasks t).stack, a.pc.joins = false := by
  intro t'
  rcases eq_or_ne t' t with rfl | hne
  · have hold := h t'
    cases hs with
    | @goto a a' below w hst ha =>
      rw [hst] at hold
      obtain ⟨hjoins, hbelow⟩ := List.forall_mem_cons.mp hold
      have hjoins' : a'.pc.joins = false := ha.joins hjoins fun prev hpc =>
        halone.unfollowed hst hpc _
      simp only [setTask, Function.update_self]
      exact List.forall_mem_cons.mpr ⟨hjoins', hbelow⟩
    | call hst ha =>
      rw [hst] at hold
      obtain ⟨-, hbelow⟩ := List.forall_mem_cons.mp hold
      simp only [setTask, Function.update_self]
      refine List.forall_mem_cons.mpr ⟨rfl, List.forall_mem_cons.mpr ⟨?_, hbelow⟩⟩
      cases ha <;> rfl
    | ret hst ha =>
      simp only [setTask, Function.update_self]
      exact fun a ha => absurd ha List.not_mem_nil
    | resume hst ha hp =>
      rw [hst] at hold
      obtain ⟨-, hrest⟩ := List.forall_mem_cons.mp hold
      obtain ⟨hjoins, hbelow⟩ := List.forall_mem_cons.mp hrest
      simp only [setTask, Function.update_self]
      refine List.forall_mem_cons.mpr ⟨?_, hbelow⟩
      cases hp with
      | touched _ ht => exact ht.joins
      | answered _ => rfl
      | idle _ => exact hjoins
  · rw [hs.tasks_ne hne]
    exact h t'

/-- **A sequential step** leaves the snapshot its scope, and nobody follows anybody. -/
theorem Diverged.step {l : Label V} (h : Diverged s σ c) (hs : step S c l = some c')
    (hseq : Sequential c l c') : Diverged s σ c' := by
  have hscoped := scoped_step h.scopes hs
  have halone := h.alone.step hs hseq
  have hmade := Nat.lt_of_lt_of_le h.made (grows_step hs).viewCount
  have hne : c.world.scope s ≠ 1 := h.scope ▸ h.own
  rcases hseq with ⟨t, rfl⟩ | ⟨hidle, hop⟩
  · have hts := taskStep_of_step hs
    exact ⟨hscoped, (hts.fixed.scope s).trans h.scope, h.own, hmade, halone,
      h.alone.unjoined h.unjoined hts⟩
  · cases l with
    | spawn view key want =>
      simp only [Config.step] at hs
      split at hs
      · cases hs
        refine ⟨hscoped, h.scope, h.own, hmade, halone, fun t => ?_⟩
        rcases eq_or_ne t c.taskCount with rfl | hne
        · simp only [Function.update_self]
          exact List.forall_mem_singleton.mpr rfl
        · simp only [Function.update_of_ne hne]
          exact h.unjoined t
      · cases hs
    | mutate view key value =>
      simp only [Config.step] at hs
      split at hs <;> cases hs
      exact ⟨hscoped, (h.scopes.scope_changed hne view key value).trans h.scope, h.own, hmade,
        halone, h.unjoined⟩
    | intern kind value =>
      cases hs
      exact ⟨hscoped, h.scope, h.own, hmade, halone, h.unjoined⟩
    | bump view =>
      simp only [Config.step] at hs
      split at hs <;> cases hs
      exact ⟨hscoped, (World.scope_bumpRevision ..).trans h.scope, h.own, hmade, halone, h.unjoined⟩
    | snapshot =>
      cases hs
      exact ⟨hscoped, (c.world.sameAt_snapshot h.made).scope.trans h.scope, h.own, hmade, halone,
        h.unjoined⟩
    | step t | drop t | «begin» view key value | advance n => cases hop

end diverged

/-- Snapshot `s` has a scope of its own, and there is a database that it is the copy of, on which
everything is in order. -/
structure Mirrored (T : Spec V) (s : ViewId) (σ : RuntimeId) (c : Config V) : Prop extends
    Diverged s σ c where
  mirror : ∃ m p, T.Upright p m ∧ c.Mirrors s m ∧ m.taskCount = c.taskCount

section mirrored

variable [DecidableEq V] {T : Spec V} {s : ViewId} {σ : RuntimeId} {c c' m : Config V} {p : Past V}
  {t : TaskId}

omit [DecidableEq V] in
/-- The mirror misses nothing that the snapshot does not miss. -/
theorem Config.Mirrors.no_missing (h : c.Mirrors s m)
    (hmissing : ∀ e ∈ c.world.log, e.isMissing = false) :
    ∀ e ∈ m.world.log, e.isMissing = false := by
  intro e he
  cases e with
  | missing i k =>
    have hno := hmissing _ (h.world.missing i k he)
    cases hno
  | revalidated _ _ _ _ _ | cycle _ _ _ => rfl

omit [DecidableEq V] in
/-- Nothing is filed for what an access on the snapshot is about to lead, nor in the mirror. -/
theorem Mirrored.unfiled (h : Mirrored T s σ c) (hup : T.Upright p m) (hm : c.Mirrors s m)
    (hpend : c.Pending t) (hview : (c.tasks t).view = s) :
    ∀ a below b below', (c.tasks t).stack = a :: below → (m.tasks t).stack = b :: below' →
      ∀ prev, a.pc = .lead prev →
        c.world.registry.filed ⟨c.world.scope s, a.rev, a.key⟩ = none ∧
          m.world.registry.filed ⟨m.world.scope 0, b.rev, b.key⟩ = none := by
  intro a below b below' hst hst' prev hpc
  obtain ⟨-, -, hstack⟩ := hm.tasks t hpend hview
  rw [hst, hst'] at hstack
  obtain ⟨hab, -⟩ := List.forall₂_cons.mp hstack
  have hpc' : b.pc = .lead prev := hab.pc_eq hpc
  exact ⟨h.alone.unfollowed hst hpc _, hup.alone.unfollowed hst' hpc' _⟩

/-- **A step of an access**, on the snapshot or elsewhere. -/
theorem Mirrored.taskStep (hT : T.Fits) (hacc : T.account = .failures) (h : Mirrored T s σ c)
    (hs : step T.schema c (.step t) = some c')
    (hmissing : ∀ e ∈ c'.world.log, e.isMissing = false) :
    Mirrored T s σ c' := by
  obtain ⟨m, p, hup, hm, hcount⟩ := h.mirror
  have hts := taskStep_of_step hs
  obtain ⟨hpend, hview', -, hcount'⟩ := hts.same_access
  refine ⟨h.toDiverged.step hs (.inl ⟨t, rfl⟩), ?_⟩
  by_cases hview : (c.tasks t).view = s
  · obtain ⟨m', hts', hm', -⟩ := hts.mirrored hT.deterministic hm hview
      (h.unfiled hup hm hpend hview)
    obtain ⟨p', hup'⟩ := hup.taskStep hT hacc hts' (hm'.no_missing hmissing)
    exact ⟨m', p', hup', hm', hts'.same_access.2.2.2.trans (hcount.trans hcount'.symm)⟩
  · have hne : ∀ t', (c'.tasks t').view = s → t' ≠ t := by
      rintro t' hv rfl
      exact hview (hview'.symm.trans hv)
    have hsame := hts.elsewhere hview (h.scopes.ne (h.scope ▸ h.own) hview)
    refine ⟨m, p, hup, ⟨hm.world.same hsame (grows_step hs), fun t' ht' hv => ?_, fun t' ht' => ?_⟩,
      hcount.trans hcount'.symm⟩
    · have ht := hne t' hv
      rw [hts.tasks_ne ht] at hv ⊢
      exact hm.tasks t' ((hts.pending_ne ht).mp ht') hv
    · obtain ⟨hp, hv⟩ := hm.others t' ht'
      have ht : t' ≠ t := by
        rintro rfl
        exact hview hv
      rw [hts.tasks_ne ht]
      exact ⟨(hts.pending_ne ht).mpr hp, hv⟩

omit [DecidableEq V] in
/-- Between two operations, the worlds change. -/
theorem Config.Mirrors.framed (hidle : c.Idle) (hm : c.Mirrors s m) {w w' : World V}
    (hw : w.Mirrors s w') : Config.Mirrors s { c with world := w } { m with world := w' } where
  world := hw
  tasks t ht := absurd ht (hidle t)
  others t ht := absurd (hm.others t ht).1 (hidle t)

/-- **An operation**, on the snapshot or elsewhere. -/
theorem Mirrored.operation (hT : T.Fits) (hacc : T.account = .failures) (h : Mirrored T s σ c)
    {l : Label V} (hs : step T.schema c l = some c') (hidle : c.Idle) (hop : l.isOperation)
    (hmissing : ∀ e ∈ c'.world.log, e.isMissing = false) : Mirrored T s σ c' := by
  obtain ⟨m, p, hup, hm, hcount⟩ := h.mirror
  have hgrow := grows_step hs
  have hidle' : m.Idle := fun t ht => hidle t (hm.others t ht).1
  have hlive : 0 < m.world.viewCount := hup.consistent.world.nonempty
  -- the mirror does the same, or nothing
  have both : ∀ {l' m'}, step T.schema m l' = some m' → l'.isOperation → l'.OnDatabase →
      c'.Mirrors s m' → m'.taskCount = c'.taskCount →
        ∃ m p, T.Upright p m ∧ c'.Mirrors s m ∧ m.taskCount = c'.taskCount := by
    intro l' m' hs' hop' hl' hm' hcount'
    obtain ⟨p', hup'⟩ := hup.step hT hacc hs' hidle' hop' hl' (hm'.no_missing hmissing)
    exact ⟨m', p', hup', hm', hcount'⟩
  refine ⟨h.toDiverged.step hs (.inr ⟨hidle, hop⟩), ?_⟩
  cases l with
  | spawn view key want =>
    simp only [step] at hs
    split at hs
    · next hv =>
      cases hs
      by_cases hview : view = s
      · subst hview
        have hs' : step T.schema m (.spawn 0 key want) =
            some { m with
              tasks := Function.update m.tasks m.taskCount ⟨0, key, want, [.enter key], none⟩
              taskCount := m.taskCount + 1 } := by
          simp only [step]
          exact if_pos ⟨hlive, hv.2⟩
        refine both hs' rfl rfl ⟨hm.world, fun t ht hv => ?_, fun t ht => ?_⟩
          (congrArg (· + 1) hcount)
        · have ht' : t = c.taskCount := by
            by_contra hne
            refine hidle t ?_
            unfold Pending at ht ⊢
            simpa [Function.update_of_ne hne] using ht
          subst ht'
          simp only [hcount, Function.update_self]
          exact ⟨trivial, trivial, .cons (mirrors_enter key) .nil⟩
        · have ht' : t = c.taskCount := by
            by_contra hne
            refine hidle' t ?_
            unfold Pending at ht ⊢
            simpa [Function.update_of_ne (hcount ▸ hne)] using ht
          subst ht'
          unfold Pending
          simp
      · refine ⟨_, p, hup.counted, ⟨hm.world, fun t ht hv => ?_, fun t ht => absurd ht (hidle' t)⟩,
          congrArg (· + 1) hcount⟩
        rcases eq_or_ne t c.taskCount with rfl | hne
        · simp only [Function.update_self] at hv
          exact absurd hv hview
        · refine absurd ?_ (hidle t)
          unfold Pending at ht ⊢
          simpa [Function.update_of_ne hne] using ht
    · cases hs
  | mutate view key value =>
    simp only [step] at hs
    split at hs
    · next hv =>
      cases hs
      by_cases hview : view = s
      · subst hview
        have hs' : step T.schema m (.mutate 0 key value) =
            some { m with world := mutateWorld m.world 0 key value } := by
          simp only [step]
          exact if_pos ⟨hlive, hv.2⟩
        have hscope' : (mutateWorld m.world 0 key value).scope 0 = m.world.scope 0 := by
          rw [(hup.consistent.world.mutate key value).1.family 0, World.origin_mutateWorld,
            hup.consistent.world.family 0]
        exact both hs' rfl rfl
          (hm.framed hidle (hm.world.mutate h.scopes (h.scope ▸ h.own) key value hscope')) hcount
      · have hsame := c.world.sameAt_mutateWorld hview key value
        exact ⟨m, p, hup, hm.framed hidle (hm.world.same hsame hgrow), hcount⟩
    · cases hs
  | intern kind value =>
    cases hs
    have hs' : step T.schema m (.intern kind value) =
        some { m with world := m.world.intern kind value } := rfl
    refine both hs' rfl trivial (hm.framed hidle ?_) hcount
    exact hm.world.of_copies (hm.world.toCopies.intern kind value) rfl rfl rfl rfl
  | bump view =>
    simp only [step] at hs
    split at hs
    · cases hs
      by_cases hview : view = s
      · subst hview
        have hs' : step T.schema m (.bump 0) =
            some { m with world := m.world.modifyRuntime 0 (·.bumpRevision) } := by
          simp only [step]
          exact if_pos hlive
        refine both hs' rfl rfl (hm.framed hidle ?_) hcount
        exact hm.world.of_copies hm.world.toCopies.bump (World.scope_bumpRevision ..)
          (World.scope_bumpRevision ..) rfl rfl
      · have hsame := c.world.sameAt_modifyRuntime hview (·.bumpRevision)
        exact ⟨m, p, hup, hm.framed hidle (hm.world.same hsame hgrow), hcount⟩
    · cases hs
  | snapshot =>
    cases hs
    have hsame := c.world.sameAt_snapshot h.made
    exact ⟨m, p, hup, hm.framed hidle (hm.world.same hsame hgrow), hcount⟩
  | step t | drop t | «begin» view key value | advance n => cases hop

/-- **What an access on the snapshot returns is right** over its slots. -/
theorem Mirrored.returns (hT : T.Fits) (h : Mirrored T s σ c)
    (hs : step T.schema c (.step t) = some c') (hview : (c.tasks t).view = s)
    (hdone : ¬ c'.Pending t) :
    ∃ r, (c'.tasks t).result = some r ∧ T.Returned c'.world s (c.tasks t).key r := by
  obtain ⟨m, p, hup, hm, hcount⟩ := h.mirror
  have hts := taskStep_of_step hs
  have hpend := hts.same_access.1
  obtain ⟨hview', hkey, -⟩ := hm.tasks t hpend hview
  obtain ⟨m', hts', hm', hresult⟩ := hts.mirrored hT.deterministic hm hview
    (h.unfiled hup hm hpend hview)
  have hseq : SequentialIn Label.OnDatabase m (.step t) m' := .inl ⟨t, rfl⟩
  have hask : m.Asked T.account (.step t) :=
    hup.calm.asked hseq (fun _ => Label.OnDatabase.primary) fun _ => hup.native.world.leaders
  obtain ⟨hworld, -, r, hr, hret⟩ := hup.consistent.returned hask hts'
    fun hp => hdone (hm'.others t hp).1
  refine ⟨r, (hresult hdone).symm.trans hr, ?_⟩
  rw [hview', hkey, ← hworld] at hret
  -- the mirror has the slots of the snapshot
  have henv :
      T.env m'.world ((m'.world.inputs 0).get) = T.env c'.world ((c'.world.inputs s).get) := by
    simp only [Spec.env, hm'.world.inputs, hm'.world.toCopies.internedAt]
  cases r with
  | ok vc =>
    unfold Spec.Returned at hret ⊢
    rw [← henv]
    exact hret
  | error e =>
    unfold Spec.Returned at hret ⊢
    rw [← henv]
    exact hret

end mirrored

/-- A sequential step, after which no interned id has been read that is not there. -/
def SoundIn (P : Label V → Prop) (c : Config V) (l : Label V) (c' : Config V) : Prop :=
  SequentialIn P c l c' ∧ ∀ e ∈ c'.world.log, e.isMissing = false

section runs

variable [DecidableEq V] {T : Spec V} {P : Label V → Prop} {s : ViewId} {σ : RuntimeId}
  {c c' : Config V} {ls : List (Label V)}

/-- If none has been read at the end, none has been read after any step. -/
theorem sound_of_log {S : Schema V} (h : Trans.Steps (step S) (SequentialIn P) c ls c')
    (hmissing : ∀ e ∈ c'.world.log, e.isMissing = false) :
    Trans.Steps (step S) (SoundIn P) c ls c' := by
  have hgrow := h.with_end (R := fun m m' => m.world.Grows m'.world) (fun m => .refl _)
    (fun _ _ _ => World.Grows.trans) fun _ _ _ => grows_step
  exact hgrow.mono fun m l m' ⟨hseq, hend⟩ => ⟨hseq, fun e he => hmissing e (hend.mem he)⟩

/-- **A snapshot that goes its own way goes on doing so.** -/
theorem Mirrored.run (hT : T.Fits) (hacc : T.account = .failures) (h : Mirrored T s σ c)
    (hrun : Trans.Steps (step T.schema) (SoundIn P) c ls c') : Mirrored T s σ c' := by
  refine hrun.invariant h fun m l m' hm hl ⟨hseq, hmissing⟩ => ?_
  rcases hseq with ⟨t, rfl⟩ | ⟨hidle, hop, -⟩
  · exact hm.taskStep hT hacc hl hmissing
  · exact hm.operation hT hacc hl hidle hop hmissing

end runs

end Picante

/-
# Runs that are orderly

In a sequential run nothing moves a revision while an access is in progress, and no `set` or
`remove` is ever halfway (`Calm`).  So what an orderly run asks of its steps holds by itself,
and what is left is the log (`orderly_of_sequential`).

If every access is on the database, in whatever order the steps come, no record is ever foreign
(`Native`): snapshots may be made, but as nobody computes on them, all records are the database's
own, with stamps up to its revision.  Then the log is fine as well, interned ids that are not there
apart.
-/
import Picante.Coherence.Run
import Picante.Sequential

namespace Picante

open Config ReadProg

variable {V : Type}

/-! ## 1. Revisions -/

/-- An access changes no slot, no revision, no identity and no interning table. -/
theorem ActStep.fixed [DecidableEq V] {S : Schema V} {w w' : World V} {view : ViewId}
    {task : TaskId} {below : List (Activation V)} {a : Activation V} {m : Move V}
    (h : ActStep S w view task below a w' m) : w.Fixed w' := by
  cases h with
  | touchInput _ _ ht | touchInterned _ _ _ ht => exact .of_same ht.same
  | reverify _ _ | start _ _ | followReset _ | setCell _ => exact .setCell ..
  | sharedMiss _ hw _ =>
    rcases hw with rfl | rfl <;>
      exact ⟨fun _ => rfl, fun _ => rfl, fun _ => rfl, fun _ => rfl, rfl, rfl⟩
  | updateDeps _ => exact .updateQueryDeps ..
  | notifyCell _ => exact .notifyCell ..
  | _ => exact ⟨fun _ => rfl, fun _ => rfl, fun _ => rfl, fun _ => rfl, rfl, rfl⟩

theorem Touched.rev {w w' : World V} {view : ViewId} {a a' : Activation V} {src : Source V}
    {rest : List Dep} {r : PicanteResult Revision} (h : Touched w view a src rest r w' a') :
    a'.rev = a.rev := by
  cases h <;> rfl

/-- An activation reads its revision at the head of its loop, and nowhere else. -/
theorem ActStep.goto_rev [DecidableEq V] {S : Schema V} {w w' : World V} {view : ViewId}
    {task : TaskId} {below : List (Activation V)} {a a' : Activation V}
    (h : ActStep S w view task below a w' (.goto a')) :
    a'.rev = w.rev view ∨ a'.rev = a.rev ∧ a.pc ≠ .top := by
  cases h with
  | top _ => exact .inl rfl
  | touchInput hpc _ ht | touchInterned hpc _ _ ht =>
    exact .inr ⟨ht.rev, by rw [hpc]; exact nofun⟩
  | overtaken hpc => exact .inr ⟨rfl, by rcases hpc with hpc | hpc <;> (rw [hpc]; exact nofun)⟩
  | listen hpc | hit hpc | stale hpc | poison hpc | retry hpc | park hpc | wake hpc | accept hpc
  | unregistered hpc | touchMissing hpc | touchCycle hpc | reverify hpc | start hpc
  | sharedMiss hpc | sharedHit hpc | sharedStale hpc | follow hpc | lead hpc | followReset hpc
  | followListen hpc | followPark hpc | followDone hpc | followFailed hpc | followCancelled hpc
  | followWake hpc | finalize hpc | readInput hpc | readInterned hpc | readMissing hpc
  | readCycle hpc | updateDeps hpc | setCell hpc | notifyCell hpc | putShared hpc | setEntry hpc
  | notifyEntry hpc | unregister hpc | unguarded hpc | restart hpc =>
    exact .inr ⟨rfl, by rw [hpc]; exact nofun⟩

theorem ActStep.call_rev [DecidableEq V] {S : Schema V} {w w' : World V} {view : ViewId}
    {task : TaskId} {below : List (Activation V)} {a a' : Activation V} {child : DynKey}
    (h : ActStep S w view task below a w' (.call a' child)) : a'.rev = a.rev ∧ a.pc ≠ .top := by
  cases h with
  | touchCall hpc | readCall hpc => exact ⟨rfl, by rw [hpc]; exact nofun⟩

theorem Resumed.rev {w w' : World V} {view : ViewId} {b b' : Activation V} {r : AccessResult V}
    (h : Resumed w view b r w' b') : b'.rev = b.rev ∧ (b.pc = .top → b'.pc = .top) := by
  cases h with
  | touched hpc ht => exact ⟨ht.rev, fun htop => by rw [hpc] at htop; cases htop⟩
  | answered hpc => exact ⟨rfl, fun htop => by rw [hpc] at htop; cases htop⟩
  | idle _ => exact ⟨rfl, id⟩

/-! ## 2. Calm -/

/-- No `set` or `remove` is under way, and every activation has read the revision that its view
is at. -/
structure Calm (c : Config V) : Prop where
  mutators : c.mutators = []
  fresh : ∀ t, ∀ b ∈ (c.tasks t).stack, b.pc = .top ∨ b.rev = c.world.rev (c.tasks t).view

theorem calm_init : Calm (init : Config V) := ⟨rfl, fun _ _ h => absurd h List.not_mem_nil⟩

theorem Calm.settled {c : Config V} (h : Calm c) : c.Settled := by
  intro m hm
  rw [h.mutators] at hm
  cases hm

theorem Calm.of_idle {c : Config V} (h : c.Idle) (hm : c.mutators = []) : Calm c := by
  refine ⟨hm, fun t b hb => ?_⟩
  rw [not_not.mp (h t)] at hb
  cases hb

section steps

variable [DecidableEq V] {S : Schema V} {c c' : Config V} {t : TaskId}

omit [DecidableEq V] in
/-- Another stack for one task, in a world at the same revisions. -/
theorem Calm.withTask (h : Calm c) {w : World V} (hrev : ∀ j, w.rev j = c.world.rev j)
    {task : Task V} (hview : task.view = (c.tasks t).view)
    (hst : ∀ b ∈ task.stack, b.pc = .top ∨ b.rev = c.world.rev (c.tasks t).view) :
    Calm ({ c with world := w }.setTask t task) where
  mutators := h.mutators
  fresh t' b hb := by
    by_cases ht : t' = t
    · subst ht
      simp only [setTask, Function.update_self] at hb ⊢
      rw [hview, hrev]
      exact hst b hb
    · simp only [setTask, Function.update_of_ne ht] at hb ⊢
      rw [hrev]
      exact h.fresh t' b hb

theorem Config.TaskStep.fixed (hstep : TaskStep S c t c') : c.world.Fixed c'.world := by
  cases hstep with
  | goto _ ha | call _ ha | ret _ ha => exact ha.fixed
  | resume _ ha hp => exact ha.fixed.trans (.of_same hp.same)

omit [DecidableEq V] in
theorem Config.fixed_cancelGuards (w : World V) (stack : List (Activation V)) :
    w.Fixed (cancelGuards w stack) := by
  induction stack generalizing w with
  | nil => exact .of_same (.refl w)
  | cons a stack ih =>
    unfold cancelGuards
    cases a.guard with
    | none => exact ih w
    | some g =>
      have hg : w.Fixed (w.modifyRegistry (·.cancel g)) :=
        ⟨fun _ => rfl, fun _ => rfl, fun _ => rfl, fun _ => rfl, rfl, rfl⟩
      exact hg.trans (ih _)

theorem Calm.taskStep (h : Calm c) (hstep : TaskStep S c t c') : Calm c' := by
  have hfresh := h.fresh t
  cases hstep with
  | @goto a a' below w hst ha =>
    rw [hst] at hfresh
    refine h.withTask ha.fixed.rev rfl fun b hb => ?_
    rcases List.mem_cons.mp hb with rfl | hb
    · rcases ha.goto_rev with hrev | ⟨hrev, hne⟩
      · exact .inr hrev
      · rw [hrev]
        exact .inr ((hfresh a (List.mem_cons_self ..)).resolve_left hne)
    · exact hfresh b (List.mem_cons_of_mem _ hb)
  | @call a a' below w child hst ha =>
    rw [hst] at hfresh
    refine h.withTask ha.fixed.rev rfl fun b hb => ?_
    rcases List.mem_cons.mp hb with rfl | hb
    · exact .inl rfl
    · rcases List.mem_cons.mp hb with rfl | hb
      · obtain ⟨hrev, hne⟩ := ha.call_rev
        rw [hrev]
        exact .inr ((hfresh a (List.mem_cons_self ..)).resolve_left hne)
      · exact hfresh b (List.mem_cons_of_mem _ hb)
  | @ret a w r hst ha => exact h.withTask ha.fixed.rev rfl fun b hb => by cases hb
  | @resume a p p' below w w' r hst ha hp =>
    rw [hst] at hfresh
    refine h.withTask (fun j => (hp.same.rev j).trans (ha.fixed.rev j)) rfl fun b hb => ?_
    rcases List.mem_cons.mp hb with rfl | hb
    · obtain ⟨hrev, htop⟩ := hp.rev
      rw [hrev]
      exact (hfresh p (by simp)).imp htop id
    · exact hfresh b (by simp [hb])

/-- **A sequential step keeps the run calm.** -/
theorem Calm.step (h : Calm c) {l : Label V} (hs : step S c l = some c')
    (hl : Sequential c l c') : Calm c' := by
  rcases hl with ⟨t, rfl⟩ | ⟨hidle, hop⟩
  · exact h.taskStep (taskStep_of_step hs)
  · have still : c'.tasks = c.tasks → c'.mutators = c.mutators → Calm c' := by
      intro ht hm
      refine .of_idle (fun t hp => hidle t ?_) (hm.trans h.mutators)
      unfold Pending at hp ⊢
      rwa [ht] at hp
    cases l with
    | spawn view key want =>
      obtain ⟨htask, -, hothers⟩ := spawned_alone hs hidle
      have hm : c'.mutators = c.mutators := by
        simp only [Config.step] at hs
        split at hs <;> cases hs
        rfl
      refine ⟨hm.trans h.mutators, fun t b hb => ?_⟩
      by_cases ht : t = c.taskCount
      · subst ht
        rw [htask] at hb
        exact .inl (by rw [List.mem_singleton.mp hb]; rfl)
      · rw [not_not.mp (hothers t ht)] at hb
        cases hb
    | mutate view key value =>
      simp only [Config.step] at hs
      split at hs <;> cases hs
      exact still rfl rfl
    | intern kind value => cases hs; exact still rfl rfl
    | bump view =>
      simp only [Config.step] at hs
      split at hs <;> cases hs
      exact still rfl rfl
    | snapshot => cases hs; exact still rfl rfl
    | step t | drop t | «begin» view key value | advance m => cases hop

/-! ## 3. What an orderly run asks for -/

/-- The operations of the caller that an orderly run may have: only the database is changed. -/
def Label.Primary : Label V → Prop
  | .mutate view _ _ | .bump view => view = 0
  | _ => True

omit [DecidableEq V] in
/-- **In a calm state a sequential step is prompt**, if no error is taken over from a
snapshot where errors are answers. -/
theorem Calm.asked {acc : Account} {l : Label V} {P : Label V → Prop} (h : Calm c)
    (hl : SequentialIn P c l c') (hP : ∀ l, P l → l.Primary)
    (hlead : acc = .answers → ∀ e, (c.world.registry.entries e).leader = 0) :
    c.Asked acc l := by
  rcases hl with ⟨t, rfl⟩ | ⟨hidle, hop, hl⟩
  · intro a below hst
    have hfresh := h.fresh t
    rw [hst] at hfresh
    refine ⟨fun _ _ => h.settled, fun hw => ?_, fun _ => hfresh,
      fun hacc _ e _ _ _ _ => hlead hacc e⟩
    refine (hfresh a (List.mem_cons_self ..)).resolve_left fun htop => ?_
    rw [htop] at hw
    cases hw
  · cases l with
    | mutate view key value => exact hP _ hl
    | bump view => exact hP _ hl
    | snapshot => exact h.settled
    | spawn view key want | intern kind value => trivial
    | step t | drop t | «begin» view key value | advance m => cases hop

/-- **A run that does what is asked of it is orderly**, if its log is allowed. -/
theorem orderly_of_log {acc : Account} {ls : List (Label V)}
    (h : Trans.Steps (step S) (fun c l _ => c.Asked acc l) c ls c')
    (hlog : ∀ e ∈ c'.world.log, Allows acc e) : Trans.Steps (step S) (Orderly acc) c ls c' := by
  have hgrow := h.with_end (R := fun m m' => m.world.Grows m'.world) (fun m => .refl _)
    (fun _ _ _ => World.Grows.trans) fun _ _ _ => grows_step
  exact hgrow.mono fun m l m' ⟨hask, hend⟩ => ⟨hask, fun e he => hlog e (hend.mem he)⟩

/-- **A sequential run on one family is orderly**, if its log is allowed. -/
theorem orderly_of_sequential (acc : Account) {P : Label V → Prop} {ls : List (Label V)}
    (h : Trans.Steps (step S) (SequentialIn P) c ls c') (hcalm : Calm c)
    (hP : ∀ l, P l → l.Primary) (hacc : acc ≠ .answers)
    (hlog : ∀ e ∈ c'.world.log, Allows acc e) :
    Trans.Steps (step S) (Orderly acc) c ls c' ∧ Calm c' := by
  have hstep : ∀ m l m', Calm m → step S m l = some m' → SequentialIn P m l m' →
      Calm m' ∧ m.Asked acc l := fun m l m' hm hl hseq =>
    ⟨hm.step hl hseq.sequential, hm.asked hseq hP fun h => absurd h hacc⟩
  obtain ⟨hasked, hc⟩ := h.strengthen hcalm hstep
  exact ⟨orderly_of_log hasked hlog, hc⟩

end steps

/-! ## 4. Records of the database -/

/-- The database computed the record, and its stamps are revisions up to `r`. -/
structure SharedCacheRecord.Native (r : Revision) (F : SharedCacheRecord V) : Prop where
  foreign : F.foreign = false
  verifiedAt : F.verifiedAt ≤ r
  changedAt : F.changedAt ≤ r

/-- The database computed the record, and its stamps are revisions up to `r`. -/
structure ReadyRecord.Native (r : Revision) (R : ReadyRecord V) : Prop where
  foreign : R.foreign = false
  verifiedAt : R.verifiedAt ≤ r
  changedAt : R.changedAt ≤ r

/-- A ready cell has a record of the database. -/
def ErasedState.Native (r : Revision) : ErasedState V → Prop
  | .ready R => R.Native r
  | _ => True

/-- A previous value has changed at a revision up to `r`. -/
def Previous.Native (r : Revision) (prev : Previous V) : Prop := ∀ p ∈ prev, p.2 ≤ r

/-- A copy for a snapshot is the database's own as well. -/
theorem ErasedState.Native.snapshot {r : Revision} {c : ErasedCell V} (h : c.state.Native r) :
    c.snapshot.state.Native r := by
  unfold ErasedCell.snapshot
  split
  · next R hs => rwa [hs] at h
  · trivial

/-- What is revalidated is a record of the database. -/
def Source.Native (r : Revision) : Source V → Prop
  | .cell _ changedAt foreign => foreign = false ∧ changedAt ≤ r
  | .shared F prev => F.Native r ∧ prev.Native r

/-- A completed entry has changed at a revision up to `r`. -/
def InFlightState.Native (r : Revision) : InFlightState V → Prop
  | .done _ _ changedAt => changedAt ≤ r
  | _ => True

/-- The operation stores nothing foreign. -/
def MicroOp.Native (r : Revision) : MicroOp V → Prop
  | .setCell st => st.Native r
  | .putShared F => F.Native r
  | .setEntry st => st.Native r
  | _ => True

/-- The activation is not dealing with anything foreign. -/
def Pc.Native (r : Revision) : Pc V → Prop
  | .revalidate src _ | .touching src _ _ => src.Native r
  | .sharedGet prev | .lead prev | .computing prev _ _ | .reading prev _ _ _ => prev.Native r
  | .finishing ops => ∀ op ∈ ops, op.Native r
  | _ => True

/-- Whether the event is about a foreign record. -/
def Event.foreign : Event → Bool
  | .revalidated _ _ _ foreign _ => foreign
  | .cycle _ _ underForeign => underForeign
  | .missing .. => false

/-- Nothing in the world is foreign. -/
structure World.Native (w : World V) : Prop where
  state : ∀ q, (w.state 0 q).Native (w.rev 0)
  shared : ∀ s q F, w.shared s q = some F → F.Native (w.rev 0)
  leaders : ∀ e, (w.registry.entries e).leader = 0
  entries : ∀ e, (w.registry.entries e).state.Native (w.rev 0)
  log : ∀ e ∈ w.log, e.foreign = false

section mono

variable {r r' : Revision}

theorem SharedCacheRecord.Native.mono {F : SharedCacheRecord V} (h : F.Native r) (hr : r ≤ r') :
    F.Native r' :=
  ⟨h.foreign, Nat.le_trans h.verifiedAt hr, Nat.le_trans h.changedAt hr⟩

theorem ErasedState.Native.mono {st : ErasedState V} (h : st.Native r) (hr : r ≤ r') :
    st.Native r' := by
  cases st with
  | ready R => exact ⟨h.foreign, Nat.le_trans h.verifiedAt hr, Nat.le_trans h.changedAt hr⟩
  | _ => trivial

theorem Previous.Native.mono {prev : Previous V} (h : prev.Native r) (hr : r ≤ r') :
    prev.Native r' := fun p hp => Nat.le_trans (h p hp) hr

theorem Source.Native.mono {src : Source V} (h : src.Native r) (hr : r ≤ r') :
    src.Native r' := by
  cases src with
  | cell deps changedAt foreign => exact ⟨h.1, Nat.le_trans h.2 hr⟩
  | shared F prev => exact ⟨h.1.mono hr, h.2.mono hr⟩

theorem InFlightState.Native.mono {st : InFlightState V} (h : st.Native r) (hr : r ≤ r') :
    st.Native r' := by
  cases st with
  | done v deps changedAt => exact Nat.le_trans h hr
  | _ => trivial

theorem Pc.Native.mono {pc : Pc V} (h : pc.Native r) (hr : r ≤ r') : pc.Native r' := by
  cases pc with
  | revalidate src rest => exact Source.Native.mono h hr
  | touching src dep rest => exact Source.Native.mono h hr
  | sharedGet prev => exact Previous.Native.mono h hr
  | lead prev => exact Previous.Native.mono h hr
  | computing prev prog deps => exact Previous.Native.mono h hr
  | reading prev d k deps => exact Previous.Native.mono h hr
  | finishing ops =>
    intro op hop
    have hnat := h op hop
    cases op with
    | putShared F => exact hnat.mono hr
    | setCell st => exact ErasedState.Native.mono hnat hr
    | setEntry st => exact InFlightState.Native.mono hnat hr
    | _ => trivial
  | _ => trivial

end mono

/-- A record of the database is not foreign to it. -/
theorem Source.Native.foreign {r : Revision} {src : Source V} (h : src.Native r) :
    src.foreign r = false := by
  cases src with
  | cell deps changedAt foreign => exact h.1
  | shared F prev =>
    exact Bool.or_eq_false_iff.mpr
      ⟨h.1.foreign, decide_eq_false (Nat.not_lt_of_le h.1.verifiedAt)⟩

theorem Previous.native_none {r : Revision} : Previous.Native r (none : Previous V) := nofun

/-- A computed value changes at the revision of its access, or changed before. -/
theorem changedAtOf_le [DecidableEq V] {r rev : Revision} {prev : Previous V} {v : V}
    (hprev : prev.Native r) (hrev : rev ≤ r) : changedAtOf prev rev v ≤ r := by
  unfold changedAtOf
  split
  · next p =>
    split
    · exact hprev _ rfl
    · exact hrev
  · exact hrev

theorem native_adoptOps {r rev : Revision} (hrev : rev ≤ r) {F : SharedCacheRecord V}
    (hF : F.Native r) : (Pc.finishing (adoptOps 0 rev F)).Native r := by
  intro op hop
  simp only [adoptOps, List.mem_cons, List.not_mem_nil, or_false] at hop
  rcases hop with rfl | rfl | rfl | rfl | rfl
  · trivial
  · exact ⟨hF.foreign, hrev, hF.changedAt⟩
  · trivial
  · exact ⟨by simp [hF.foreign], hrev, hF.changedAt⟩
  · trivial

theorem native_afterRevalidation {r rev : Revision} {src : Source V} (hrev : rev ≤ r)
    (h : src.Native r) (accepted : Bool) :
    (afterRevalidation 0 rev src accepted).Native r := by
  cases src with
  | cell deps ch foreign => cases accepted <;> trivial
  | shared F prev =>
    cases accepted with
    | false => exact h.2
    | true => exact native_adoptOps hrev h.1

section native

variable {w w' : World V} {r : Revision} {a a' : Activation V} {below : List (Activation V)}

/-- The world is as it was, but for records that are not foreign either, and events about
records that are not. -/
theorem World.Native.step (h : w.Native) (hrev : w'.rev 0 = w.rev 0)
    (hstate : ∀ q, w'.state 0 q = w.state 0 q ∨ (w'.state 0 q).Native (w.rev 0))
    (hshared : ∀ s q F, w'.shared s q = some F →
      w.shared s q = some F ∨ F.Native (w.rev 0))
    (hentries : ∀ e, ((w'.registry.entries e).leader = (w.registry.entries e).leader ∨
      (w'.registry.entries e).leader = 0) ∧
        ((w'.registry.entries e).state = (w.registry.entries e).state ∨
          (w'.registry.entries e).state.Native (w.rev 0)))
    (hlog : ∀ e ∈ w'.log, e ∈ w.log ∨ e.foreign = false) : w'.Native where
  state q := by
    rw [hrev]
    exact (hstate q).elim (fun heq => heq ▸ h.state q) id
  shared s q F hF := by
    rw [hrev]
    exact (hshared s q F hF).elim (h.shared s q F) id
  leaders e := (hentries e).1.elim (fun heq => heq.trans (h.leaders e)) id
  entries e := by
    rw [hrev]
    exact (hentries e).2.elim (fun heq => heq ▸ h.entries e) id
  log e he := (hlog e he).elim (h.log e) id

/-- The record of a ready cell is the database's own. -/
theorem World.Native.ready (h : w.Native) {q : DynKey} {R : ReadyRecord V}
    (hs : w.state 0 q = .ready R) : R.Native (w.rev 0) := by
  have hst := h.state q
  rwa [hs] at hst

/-- The world is as it was, but for its cells. -/
theorem World.Native.withCells (h : w.Native) (hrev : w'.rev 0 = w.rev 0)
    (hstate : ∀ q, w'.state 0 q = w.state 0 q ∨ (w'.state 0 q).Native (w.rev 0))
    (hshared : w'.shared = w.shared) (hregistry : w'.registry = w.registry)
    (hlog : w'.log = w.log) : w'.Native :=
  h.step hrev hstate (fun s q F hF => .inl (hshared ▸ hF))
    (fun e => ⟨.inl (by rw [hregistry]), .inl (by rw [hregistry])⟩) fun _ he => .inl (hlog ▸ he)

theorem World.Native.of_same (h : w.Native) (hs : w.Same w') (hlog : w'.log = w.log) :
    w'.Native :=
  h.withCells (hs.rev 0) (fun q => .inl (hs.state 0 q)) hs.shared hs.registry hlog

theorem World.Native.logged (h : w.Native) {e : Event} (he : e.foreign = false) :
    (w.logged e).Native :=
  h.step rfl (fun _ => .inl rfl) (fun _ _ _ hF => .inl hF) (fun _ => ⟨.inl rfl, .inl rfl⟩)
    fun _ he' => (List.mem_cons.mp he').elim (fun heq => .inr (heq ▸ he)) .inl

theorem World.Native.setCell (h : w.Native) (k : DynKey) {st : ErasedState V}
    (hst : st.Native (w.rev 0)) : (w.setCell 0 k st).Native := by
  refine h.withCells (World.rev_setCell ..) (fun q => ?_) rfl rfl rfl
  rw [World.state_setCell]
  split
  · exact .inr hst
  · exact .inl rfl

theorem World.Native.modifyRegistry (h : w.Native) {f : Registry V → Registry V}
    (hf : ∀ e, (((f w.registry).entries e).leader = (w.registry.entries e).leader ∨
      ((f w.registry).entries e).leader = 0) ∧
        (((f w.registry).entries e).state = (w.registry.entries e).state ∨
          ((f w.registry).entries e).state.Native (w.rev 0))) : (w.modifyRegistry f).Native :=
  h.step rfl (fun _ => .inl rfl) (fun _ _ _ hF => .inl hF) hf fun _ he => .inl he

theorem Registry.state_setState (R : Registry V) (e e' : EntryId) (st : InFlightState V) :
    ((R.setState e st).entries e').state = (R.entries e').state ∨
      ((R.setState e st).entries e').state = st := by
  rcases eq_or_ne e' e with rfl | he
  · exact .inr (by simp [setState])
  · exact .inl (by simp [setState, he])

theorem Registry.state_notify (R : Registry V) (e e' : EntryId) :
    ((R.notify e).entries e').state = (R.entries e').state := by
  rcases eq_or_ne e' e with rfl | he
  · simp [notify]
  · simp [notify, he]

theorem Registry.leader_setState (R : Registry V) (e e' : EntryId) (st : InFlightState V) :
    ((R.setState e st).entries e').leader = (R.entries e').leader := by
  rcases eq_or_ne e' e with rfl | he
  · simp [setState]
  · simp [setState, he]

theorem Registry.leader_notify (R : Registry V) (e e' : EntryId) :
    ((R.notify e).entries e').leader = (R.entries e').leader := by
  rcases eq_or_ne e' e with rfl | he
  · simp [notify]
  · simp [notify, he]

/-- The end of a touch on behalf of a record of the database. -/
theorem Touched.native (hn : w.Native) {src : Source V} {rest : List Dep}
    {res : PicanteResult Revision} (hrev : a.rev ≤ w.rev 0)
    (hsrc : src.Native (w.rev 0)) (h : Touched w 0 a src rest res w' a') :
    w'.Native ∧ a'.pc.Native (w.rev 0) := by
  cases h with
  | unchanged _ => exact ⟨hn, hsrc⟩
  | changed _ =>
    refine ⟨hn.logged hsrc.foreign, ?_⟩
    exact native_afterRevalidation hrev hsrc false
  | failed =>
    refine ⟨hn.logged hsrc.foreign, fun op hop => ?_⟩
    obtain rfl := List.mem_singleton.mp hop
    trivial

/-- No activation of the stack is touching on behalf of a foreign record. -/
theorem native_cycleEvent {stack : List (Activation V)}
    (h : ∀ b ∈ stack, b.pc.Native r) (k : DynKey) :
    (cycleEvent r 0 k stack).foreign = false := by
  show (segment k stack).any (·.touchesForeign r) = false
  induction stack with
  | nil => rfl
  | cons b stack ih =>
    have hb : b.touchesForeign r = false := by
      have hpc := h b (List.mem_cons_self ..)
      unfold Activation.touchesForeign
      split
      · next heq => rw [heq] at hpc; exact Source.Native.foreign hpc
      · next heq => rw [heq] at hpc; exact Source.Native.foreign hpc
      · rfl
    unfold segment
    split
    · simp [hb]
    · rw [List.any_cons, hb, ih fun c hc => h c (List.mem_cons_of_mem _ hc)]
      rfl

variable [DecidableEq V] {S : Schema V} {task : TaskId}

/-- **A step of an access on the database deals with nothing foreign.** -/
theorem ActStep.native (hn : w.Native) (hstack : ∀ b ∈ a :: below, b.pc.Native (w.rev 0))
    (hrev : a.pc = .top ∨ a.rev ≤ w.rev 0)
    (h : ActStep S w 0 task below a w' (.goto a')) :
    w'.Native ∧ a'.pc.Native (w.rev 0) := by
  have hpc := hstack a (List.mem_cons_self ..)
  have tail : ∀ {op : MicroOp V} {ops : List (MicroOp V)}, a.pc = .finishing (op :: ops) →
      op.Native (w.rev 0) ∧ (Pc.finishing ops).Native (w.rev 0) := by
    intro op ops heq
    rw [heq] at hpc
    exact ⟨hpc op (List.mem_cons_self ..), fun op' hop => hpc op' (List.mem_cons_of_mem _ hop)⟩
  have only : ∀ {op : MicroOp V}, op.Native (w.rev 0) →
      (Pc.finishing [op]).Native (w.rev 0) := by
    intro op hop op' hop'
    obtain rfl := List.mem_singleton.mp hop'
    exact hop
  have prev : ∀ {p : Previous V} {prog : Query V} {deps : List Dep},
      a.pc = .computing p prog deps → p.Native (w.rev 0) := by
    intro p prog deps heq
    rw [heq] at hpc
    exact hpc
  have hr : a.pc ≠ .top → a.rev ≤ w.rev 0 := fun hne => hrev.resolve_left hne
  have lookup : World.Native { w with lookups := w.lookups + 1 } :=
    hn.withCells rfl (fun _ => .inl rfl) rfl rfl rfl
  cases h with
  | top _ | listen _ | retry _ _ | park _ _ | wake _ _ | overtaken _ | follow _ _ | followListen _
  | followPark _ | followCancelled _ | followWake _ | restart _ _ => exact ⟨hn, trivial⟩
  | readInput heq _ | readInterned heq _ _ => exact ⟨hn, prev heq⟩
  | hit _ _ _ | poison _ _ => exact ⟨hn, only trivial⟩
  | stale _ hs _ =>
    have hR := hn.ready hs
    exact ⟨hn, hR.foreign, hR.changedAt⟩
  | @accept src heq =>
    rw [heq] at hpc
    exact ⟨hn.logged hpc.foreign, native_afterRevalidation (hr (by rw [heq]; rintro ⟨⟩)) hpc true⟩
  | @unregistered src dep rest heq _ =>
    rw [heq] at hpc
    exact ⟨hn.logged hpc.foreign,
      native_afterRevalidation (hr (by rw [heq]; rintro ⟨⟩)) hpc false⟩
  | touchInput heq _ ht | touchInterned heq _ _ ht =>
    rw [heq] at hpc
    exact ht.native hn (hr (by rw [heq]; rintro ⟨⟩)) hpc
  | touchMissing heq _ _ =>
    rw [heq] at hpc
    exact ⟨(hn.logged rfl).logged (Source.Native.foreign hpc), only trivial⟩
  | touchCycle heq _ _ =>
    rw [heq] at hpc
    exact ⟨(hn.logged (native_cycleEvent hstack _)).logged (Source.Native.foreign hpc),
      only trivial⟩
  | @reverify R heq hs =>
    have hR := hn.ready hs
    exact ⟨hn.setCell _ ⟨hR.foreign, hr (by rw [heq]; rintro ⟨⟩), hR.changedAt⟩, only trivial⟩
  | @start p _ hs =>
    refine ⟨hn.setCell _ trivial, ?_⟩
    rcases hs with ⟨R, hs, -, rfl⟩ | ⟨-, rfl⟩
    · intro q hq
      cases hq
      exact (hn.ready hs).changedAt
    · exact Previous.native_none
  | followReset _ => exact ⟨hn.setCell _ trivial, trivial⟩
  | sharedMiss heq hw _ =>
    rw [heq] at hpc
    refine ⟨?_, hpc⟩
    rcases hw with rfl | rfl
    · exact lookup
    · refine hn.step rfl (fun _ => .inl rfl) (fun s q F hF => .inl ?_)
        (fun _ => ⟨.inl rfl, .inl rfl⟩) fun _ he => .inl he
      have hF' : (w.evictShared (w.scope 0) a.key).shared s q = some F := hF
      rw [World.shared_evictShared] at hF'
      split at hF'
      · cases hF'
      · exact hF'
  | sharedHit heq hs _ =>
    exact ⟨lookup, native_adoptOps (hr (by rw [heq]; rintro ⟨⟩)) (hn.shared _ _ _ hs)⟩
  | sharedStale heq hs _ =>
    rw [heq] at hpc
    exact ⟨lookup, hn.shared _ _ _ hs, hpc⟩
  | lead heq _ =>
    rw [heq] at hpc
    refine ⟨hn.step rfl (fun _ => .inl rfl) (fun _ _ _ hF => .inl hF) (fun e => ?_)
      fun _ he => .inl he, hpc⟩
    rcases eq_or_ne e w.registry.nextEntry with rfl | he
    · exact ⟨.inr (by simp [World.modifyRegistry, Registry.lead]),
        .inr (by simp [World.modifyRegistry, Registry.lead, InFlightState.Native])⟩
    · exact ⟨.inl (by simp [World.modifyRegistry, Registry.lead, he]),
        .inl (by simp [World.modifyRegistry, Registry.lead, he])⟩
  | @followDone e seen v deps ch heq hs =>
    refine ⟨hn, fun op hop => ?_⟩
    have hle := hr (by rw [heq]; rintro ⟨⟩)
    have hch := hn.entries e
    rw [hs] at hch
    rw [hn.leaders] at hop
    simp only [followOps, List.mem_cons, List.not_mem_nil, or_false] at hop
    rcases hop with rfl | rfl | rfl | rfl | rfl
    · exact ⟨rfl, hle, hch⟩
    · trivial
    · trivial
    · exact ⟨rfl, hle, hch⟩
    · trivial
  | followFailed _ _ =>
    refine ⟨hn, fun op hop => ?_⟩
    simp only [followFailedOps, List.mem_cons, List.not_mem_nil, or_false] at hop
    rcases hop with rfl | rfl | rfl <;> trivial
  | @finalize p out deps heq =>
    refine ⟨hn, fun op hop => ?_⟩
    have hle := hr (by rw [heq]; rintro ⟨⟩)
    cases out with
    | ok v =>
      have hch : changedAtOf p a.rev v ≤ w.rev 0 := changedAtOf_le (prev heq) hle
      simp only [finalizeOps, List.mem_cons, List.not_mem_nil, or_false] at hop
      rcases hop with rfl | rfl | rfl | rfl | rfl | rfl | rfl | rfl
      · trivial
      · exact ⟨rfl, hle, hch⟩
      · trivial
      · exact ⟨rfl, hle, hch⟩
      · exact hch
      all_goals trivial
    | error e =>
      simp only [finalizeOps, List.mem_cons, List.not_mem_nil, or_false] at hop
      rcases hop with rfl | rfl | rfl | rfl | rfl | rfl <;> trivial
  | readMissing heq _ _ => exact ⟨hn.logged rfl, prev heq⟩
  | readCycle heq _ _ => exact ⟨hn.logged (native_cycleEvent hstack _), prev heq⟩
  | updateDeps heq =>
    exact ⟨hn.withCells (World.rev_updateQueryDeps ..)
      (fun _ => .inl (World.state_modifyRuntime ..)) rfl rfl rfl, (tail heq).2⟩
  | setCell heq =>
    obtain ⟨hop, hops⟩ := tail heq
    exact ⟨hn.setCell _ hop, hops⟩
  | notifyCell heq =>
    exact ⟨hn.withCells (World.rev_notifyCell ..) (fun _ => .inl (World.state_notifyCell ..))
      rfl rfl rfl, (tail heq).2⟩
  | putShared heq =>
    obtain ⟨hop, hops⟩ := tail heq
    refine ⟨hn.step rfl (fun _ => .inl rfl) (fun s q F hF => ?_)
      (fun _ => ⟨.inl rfl, .inl rfl⟩) (fun _ he => .inl he), hops⟩
    rw [World.shared_putShared] at hF
    split at hF
    · cases hF
      exact .inr hop
    · exact .inl hF
  | setEntry heq _ =>
    obtain ⟨hop, hops⟩ := tail heq
    refine ⟨hn.modifyRegistry fun e => ⟨.inl (Registry.leader_setState ..), ?_⟩, hops⟩
    refine (Registry.state_setState ..).imp id fun hst => ?_
    rw [hst]
    exact hop
  | notifyEntry heq _ =>
    exact ⟨hn.modifyRegistry fun e => ⟨.inl (Registry.leader_notify ..),
      .inl (Registry.state_notify ..)⟩, (tail heq).2⟩
  | unregister heq _ =>
    exact ⟨hn.modifyRegistry fun e => ⟨.inl rfl, .inl rfl⟩, (tail heq).2⟩
  | unguarded heq _ _ => exact ⟨hn, (tail heq).2⟩

theorem ActStep.native_call (hstack : ∀ b ∈ a :: below, b.pc.Native (w.rev 0))
    {child : DynKey} (h : ActStep S w 0 task below a w' (.call a' child)) :
    w' = w ∧ a'.pc.Native (w.rev 0) := by
  have hpc := hstack a (List.mem_cons_self ..)
  cases h with
  | touchCall heq _ _ | readCall heq _ _ =>
    rw [heq] at hpc
    exact ⟨rfl, hpc⟩

omit [DecidableEq V] in
theorem Resumed.native (hn : w.Native) (ha : a.pc.Native (w.rev 0))
    (hrev : a.pc = .top ∨ a.rev ≤ w.rev 0) {res : AccessResult V}
    (h : Resumed w 0 a res w' a') : w'.Native ∧ a'.pc.Native (w.rev 0) := by
  cases h with
  | touched heq ht =>
    rw [heq] at ha
    exact ht.native hn (hrev.resolve_left (by rw [heq]; exact nofun)) ha
  | answered heq =>
    rw [heq] at ha
    exact ⟨hn, ha⟩
  | idle _ => exact ⟨hn, ha⟩

end native

/-! ## 5. Runs whose accesses are all on the database -/

/-- Nothing is foreign, every access is on the database, and has read a revision that the
database has reached. -/
structure Native (c : Config V) : Prop where
  world : c.world.Native
  views : ∀ t, c.Pending t → (c.tasks t).view = 0
  stacked : ∀ t, ∀ b ∈ (c.tasks t).stack,
    b.pc.Native (c.world.rev 0) ∧ (b.pc = .top ∨ b.rev ≤ c.world.rev 0)

/-- The operations of a run whose accesses are all on the database, as its changes are. -/
def Label.OnDatabase : Label V → Prop
  | .spawn view _ _ | .mutate view _ _ | .begin view _ _ | .bump view => view = 0
  | _ => True

theorem Label.OnDatabase.primary {l : Label V} (h : l.OnDatabase) : l.Primary := by
  cases l <;> first | exact h | trivial

theorem native_init : Native (init : Config V) where
  world := ⟨fun _ => trivial, nofun, fun _ => rfl, fun _ => trivial, nofun⟩
  views _ h := absurd rfl h
  stacked _ _ h := absurd h List.not_mem_nil

section runs

variable [DecidableEq V] {S : Schema V} {c c' : Config V} {t : TaskId}

omit [DecidableEq V] in
/-- Another stack for one task, in another world. -/
theorem Native.withTask (h : Native c) {w : World V} (hw : w.Native)
    (hrev : w.rev 0 = c.world.rev 0) {task : Task V} (hview : task.view = 0)
    (hst : ∀ b ∈ task.stack,
      b.pc.Native (c.world.rev 0) ∧ (b.pc = .top ∨ b.rev ≤ c.world.rev 0)) :
    Native ({ c with world := w }.setTask t task) where
  world := hw
  views t' ht' := by
    by_cases ht : t' = t
    · subst ht
      simp only [setTask, Function.update_self, hview]
    · simp only [setTask, Function.update_of_ne ht]
      exact h.views t' ((pending_setTask_ne ht task).mp ht')
  stacked t' b hb := by
    show b.pc.Native (w.rev 0) ∧ (b.pc = .top ∨ b.rev ≤ w.rev 0)
    rw [hrev]
    by_cases ht : t' = t
    · subst ht
      simp only [setTask, Function.update_self] at hb
      exact hst b hb
    · simp only [setTask, Function.update_of_ne ht] at hb
      exact h.stacked t' b hb

omit [DecidableEq V] in
/-- No task moves, and the world moves on with nothing foreign in it. -/
theorem Native.withWorld (h : Native c) {w : World V} (hw : w.Native)
    (hrev : c.world.rev 0 ≤ w.rev 0) (ms : List (Mutator V)) :
    Native { c with world := w, mutators := ms } where
  world := hw
  views t ht := h.views t ht
  stacked t b hb := by
    obtain ⟨hpc, hb'⟩ := h.stacked t b hb
    exact ⟨hpc.mono hrev, hb'.imp id fun hle => Nat.le_trans hle hrev⟩

theorem Native.taskStep (h : Native c) (hstep : TaskStep S c t c') : Native c' := by
  have hstack := h.stacked t
  have hview := h.views t hstep.same_access.1
  cases hstep with
  | @goto a a' below w hst ha =>
    rw [hst] at hstack
    rw [hview] at ha
    obtain ⟨hpc, hrev⟩ := hstack a (List.mem_cons_self ..)
    obtain ⟨hw, ha'⟩ := ha.native h.world (fun b hb => (hstack b hb).1) hrev
    refine h.withTask hw (ha.fixed.rev 0) hview fun b hb => ?_
    rcases List.mem_cons.mp hb with rfl | hb
    · refine ⟨ha', .inr ?_⟩
      rcases ha.goto_rev with hread | ⟨hsame, hne⟩
      · exact Nat.le_of_eq hread
      · rw [hsame]
        exact hrev.resolve_left hne
    · exact hstack b (List.mem_cons_of_mem _ hb)
  | @call a a' below w child hst ha =>
    rw [hst] at hstack
    rw [hview] at ha
    obtain ⟨-, hrev⟩ := hstack a (List.mem_cons_self ..)
    obtain ⟨rfl, ha'⟩ := ha.native_call fun b hb => (hstack b hb).1
    refine h.withTask h.world rfl hview fun b hb => ?_
    rcases List.mem_cons.mp hb with rfl | hb
    · exact ⟨trivial, .inl rfl⟩
    · rcases List.mem_cons.mp hb with rfl | hb
      · obtain ⟨hsame, hne⟩ := ha.call_rev
        refine ⟨ha', .inr ?_⟩
        rw [hsame]
        exact hrev.resolve_left hne
      · exact hstack b (List.mem_cons_of_mem _ hb)
  | @ret a w r hst ha =>
    obtain rfl := ha.ret_world
    exact h.withTask h.world rfl hview fun b hb => by cases hb
  | @resume a p p' below w w' r hst ha hp =>
    rw [hst] at hstack
    rw [hview] at hp
    obtain rfl := ha.ret_world
    obtain ⟨hpc, hrev⟩ := hstack p (by simp)
    obtain ⟨hw, hp'⟩ := hp.native h.world hpc hrev
    refine h.withTask hw (hp.same.rev 0) hview fun b hb => ?_
    rcases List.mem_cons.mp hb with rfl | hb
    · obtain ⟨hsame, htop⟩ := hp.rev
      refine ⟨hp', ?_⟩
      rw [hsame]
      exact hrev.imp htop id
    · exact hstack b (by simp [hb])

omit [DecidableEq V] in
/-- The revision of the database moves on. -/
theorem World.Native.advanced {w w' : World V} (h : w.Native) (hrev : w.rev 0 ≤ w'.rev 0)
    (hstate : ∀ q, w'.state 0 q = w.state 0 q) (hshared : w'.shared = w.shared)
    (hregistry : w'.registry = w.registry) (hlog : w'.log = w.log) : w'.Native where
  state q := by
    rw [hstate]
    exact (h.state q).mono hrev
  shared s q F hF := (h.shared s q F (by rw [← hshared]; exact hF)).mono hrev
  leaders e := by
    rw [hregistry]
    exact h.leaders e
  entries e := by
    rw [hregistry]
    exact (h.entries e).mono hrev
  log e he := h.log e (by rw [← hlog]; exact he)

omit [DecidableEq V] in
theorem World.rev_le_bump (w : World V) (i j : ViewId) :
    w.rev j ≤ (w.modifyRuntime i (·.bumpRevision)).rev j := by
  rw [World.rev_modifyRuntime]
  split
  · next h => subst h; exact Nat.le_succ _
  · exact Nat.le_refl _

omit [DecidableEq V] in
theorem World.Native.bump {w : World V} (h : w.Native) (i : ViewId) :
    (w.modifyRuntime i (·.bumpRevision)).Native :=
  h.advanced (w.rev_le_bump i 0) (fun _ => World.state_modifyRuntime ..) rfl rfl rfl

omit [DecidableEq V] in
theorem World.Native.markDivergent {w : World V} (h : w.Native) (i : ViewId) :
    (w.markDivergent i).Native :=
  h.advanced (Nat.le_of_eq (World.rev_markDivergent ..).symm)
    (fun _ => congrArg ErasedCell.state (World.cell_markDivergent ..)) rfl rfl rfl

omit [DecidableEq V] in
theorem World.Native.storeInput {w : World V} (h : w.Native) (i : ViewId) (k : DynKey)
    (v : Option V) (r : Revision) : (w.storeInput i k v r).Native :=
  h.advanced (Nat.le_of_eq (World.rev_storeInput ..).symm)
    (fun _ => World.state_storeInput ..) rfl rfl rfl

theorem World.Native.mutate {w : World V} (h : w.Native) (i : ViewId) (k : DynKey)
    (v : Option V) : (mutateWorld w i k v).Native ∧ w.rev 0 ≤ (mutateWorld w i k v).rev 0 := by
  unfold mutateWorld
  split
  · exact ⟨h, Nat.le_refl _⟩
  · refine ⟨((h.bump i).markDivergent i).storeInput i k v _, ?_⟩
    rw [World.rev_storeInput, World.rev_markDivergent]
    exact w.rev_le_bump i 0

theorem World.Native.stepMutator {w w' : World V} {m m' : Mutator V} (h : w.Native)
    (hs : stepMutator w m = some (w', m')) : w'.Native ∧ w.rev 0 ≤ w'.rev 0 := by
  unfold Config.stepMutator at hs
  cases hpc : m.pc with
  | check =>
    simp only [hpc] at hs
    split at hs <;> (cases hs; exact ⟨h, Nat.le_refl _⟩)
  | bump =>
    simp only [hpc] at hs
    cases hs
    exact ⟨h.bump _, w.rev_le_bump _ 0⟩
  | diverge r =>
    simp only [hpc] at hs
    cases hs
    exact ⟨h.markDivergent _, Nat.le_of_eq (World.rev_markDivergent ..).symm⟩
  | store r =>
    simp only [hpc] at hs
    cases hs
    exact ⟨h.storeInput _ _ _ _, Nat.le_of_eq (World.rev_storeInput ..).symm⟩
  | done r => simp [hpc] at hs

omit [DecidableEq V] in
theorem World.Native.cancelGuards {w : World V} (h : w.Native) (stack : List (Activation V)) :
    (cancelGuards w stack).Native ∧ (cancelGuards w stack).rev 0 = w.rev 0 := by
  induction stack generalizing w with
  | nil => exact ⟨h, rfl⟩
  | cons a stack ih =>
    unfold Config.cancelGuards
    cases a.guard with
    | none => exact ih h
    | some g =>
      have hw : (w.modifyRegistry (·.cancel g)).Native := by
        refine h.modifyRegistry fun e => ⟨.inl ?_, ?_⟩
        · show (((w.registry.setState g.entry .cancelled).notify g.entry).entries e).leader = _
          rw [Registry.leader_notify, Registry.leader_setState]
        · show (((w.registry.setState g.entry .cancelled).notify g.entry).entries e).state = _ ∨
            (((w.registry.setState g.entry .cancelled).notify g.entry).entries e).state.Native _
          rw [Registry.state_notify]
          refine (Registry.state_setState ..).imp id fun hst => ?_
          rw [hst]
          trivial
      exact ⟨(ih hw).1, (ih hw).2⟩

/-- **A step of a run on the database deals with nothing foreign.** -/
theorem Native.step (h : Native c) {l : Label V} (hs : step S c l = some c')
    (hl : l.OnDatabase) : Native c' := by
  cases l with
  | spawn view key want =>
    obtain rfl : view = 0 := hl
    simp only [Config.step] at hs
    split at hs <;> cases hs
    refine ⟨h.world, fun t ht => ?_, fun t b hb => ?_⟩
    · unfold Pending at ht
      rcases eq_or_ne t c.taskCount with rfl | hne
      · simp
      · simp only [Function.update_of_ne hne] at ht ⊢
        exact h.views t ht
    · rcases eq_or_ne t c.taskCount with rfl | hne
      · simp only [Function.update_self] at hb
        rw [List.mem_singleton.mp hb]
        exact ⟨trivial, .inl rfl⟩
      · simp only [Function.update_of_ne hne] at hb
        exact h.stacked t b hb
  | step t => exact h.taskStep (taskStep_of_step hs)
  | drop t =>
    simp only [Config.step, dropTask] at hs
    split at hs
    · cases hs
    · next a below hst =>
      split at hs <;> cases hs
      obtain ⟨hw, hrev⟩ := h.world.cancelGuards (a :: below)
      exact h.withTask hw hrev (h.views t (pending_of_stack hst)) fun b hb => by cases hb
  | mutate view key value =>
    simp only [Config.step] at hs
    split at hs <;> cases hs
    obtain ⟨hw, hrev⟩ := h.world.mutate view key value
    exact h.withWorld hw hrev _
  | «begin» view key value =>
    simp only [Config.step] at hs
    split at hs <;> cases hs
    exact h.withWorld h.world (Nat.le_refl _) _
  | advance n =>
    simp only [Config.step] at hs
    split at hs
    · cases hs
    · split at hs
      · cases hs
      · next hw =>
        cases hs
        obtain ⟨hw', hrev⟩ := h.world.stepMutator hw
        exact h.withWorld hw' hrev _
  | intern kind value =>
    cases hs
    have hw : (c.world.intern kind value).Native :=
      ⟨h.world.state, h.world.shared, h.world.leaders, h.world.entries, h.world.log⟩
    exact h.withWorld hw (Nat.le_refl _) _
  | bump view =>
    simp only [Config.step] at hs
    split at hs <;> cases hs
    exact h.withWorld (h.world.bump view) (c.world.rev_le_bump view 0) _
  | snapshot =>
    cases hs
    have hrev : c.world.rev 0 ≤ c.world.snapshot.rev 0 := by
      rw [World.rev_snapshot]
      split <;> exact Nat.le_refl _
    have hw : c.world.snapshot.Native := by
      refine ⟨fun q => ErasedState.Native.mono ?_ hrev,
        fun s q F hF => (h.world.shared s q F hF).mono hrev, h.world.leaders,
        fun e => (h.world.entries e).mono hrev, h.world.log⟩
      rw [World.state_snapshot]
      split
      · exact (h.world.state q).snapshot
      · exact h.world.state q
    exact h.withWorld hw hrev _

/-- **A run on the database that does what is asked of it is orderly**, whatever its errors are
accounted as, if it reads no interned id that is not there; where errors are answers, no
revalidation may fail, and no cycle be met. -/
theorem orderly_of_asked {acc : Account} {ls : List (Label V)}
    (h : Trans.Steps (Config.step S) (fun c l _ => l.OnDatabase ∧ c.Asked acc l) c ls c')
    (hn : Native c) (hlog : ∀ e ∈ c'.world.log, e.foreign = false → Allows acc e) :
    Trans.Steps (Config.step S) (Orderly acc) c ls c' ∧ Native c' := by
  have hn' := h.invariant hn fun m l m' hm hl hok => hm.step hl hok.1
  refine ⟨orderly_of_log (h.mono fun _ _ _ hok => hok.2) fun e he => ?_, hn'⟩
  exact hlog e he (hn'.world.log e he)

/-- A sequential run on the database does what is asked of it. -/
theorem orderly_of_native (acc : Account) {ls : List (Label V)}
    (h : Trans.Steps (Config.step S) (SequentialIn Label.OnDatabase) c ls c') (hcalm : Calm c)
    (hn : Native c)
    (hlog : ∀ e ∈ c'.world.log, e.foreign = false → Allows acc e) :
    Trans.Steps (Config.step S) (Orderly acc) c ls c' ∧ Calm c' ∧ Native c' := by
  have hstep : ∀ m l m', Calm m ∧ Native m → Config.step S m l = some m' →
      SequentialIn Label.OnDatabase m l m' →
        (Calm m' ∧ Native m') ∧ l.OnDatabase ∧ m.Asked acc l := by
    intro m l m' ⟨hcm, hnm⟩ hl hseq
    have hon : l.OnDatabase := by
      rcases hseq with ⟨t, rfl⟩ | ⟨-, -, hon⟩
      · trivial
      · exact hon
    exact ⟨⟨hcm.step hl hseq.sequential, hnm.step hl hon⟩, hon,
      hcm.asked hseq (fun _ => Label.OnDatabase.primary) fun _ => hnm.world.leaders⟩
  obtain ⟨hrun, hc, -⟩ := h.strengthen ⟨hcalm, hn⟩ hstep
  obtain ⟨horderly, hn'⟩ := orderly_of_asked hrun hn hlog
  exact ⟨horderly, hc, hn'⟩

end runs

/-! ## 6. An access by itself -/

section frame

variable {key : DynKey} {w w' w'' : World V}

/-- Of what the database holds, at most the cell and the shared record of `key` differ. -/
structure World.Frame (key : DynKey) (w w' : World V) : Prop where
  inputs : w'.inputs 0 = w.inputs 0
  cells : ∀ q, q ≠ key → w'.cell 0 q = w.cell 0 q
  interned : w'.interned = w.interned
  unshared : ∀ s q, q ≠ key → w.shared s q = none → w'.shared s q = none

theorem World.Frame.refl (w : World V) : w.Frame key w :=
  ⟨rfl, fun _ _ => rfl, rfl, fun _ _ _ => id⟩

theorem World.Frame.trans (h₁ : w.Frame key w') (h₂ : w'.Frame key w'') : w.Frame key w'' where
  inputs := h₂.inputs.trans h₁.inputs
  cells q hq := (h₂.cells q hq).trans (h₁.cells q hq)
  interned := h₂.interned.trans h₁.interned
  unshared s q hq hnone := h₂.unshared s q hq (h₁.unshared s q hq hnone)

theorem World.Frame.of_same (h : w.Same w') : w.Frame key w' :=
  ⟨h.inputs 0, fun q _ => h.cell 0 q, h.interned, fun _ _ _ hnone => h.shared ▸ hnone⟩

variable [DecidableEq V] {S : Schema V} {c c' : Config V} {t : TaskId}

theorem ActStep.frame {view : ViewId} {below : List (Activation V)} {a : Activation V} {m : Move V}
    (h : ActStep S w view t below a w' m) (hkey : a.key = key) : w.Frame key w' where
  inputs := h.fixed.inputs 0
  cells _ hq := h.cell_other fun hk => hq (hk.2.trans hkey)
  interned := h.fixed.interned
  unshared _ _ hq := h.shared_other fun hk => hq (hk.trans hkey)

theorem Config.TaskStep.frame (h : TaskStep S c t c')
    (hkeys : ∀ a ∈ (c.tasks t).stack, a.key = key) : c.world.Frame key c'.world := by
  have htop : ∀ {a below}, (c.tasks t).stack = a :: below → a.key = key := by
    intro a below hst
    exact hkeys a (hst ▸ List.mem_cons_self ..)
  cases h with
  | goto hst ha | call hst ha | ret hst ha => exact ha.frame (htop hst)
  | resume hst ha hp => exact (ha.frame (htop hst)).trans (.of_same hp.same)

/-- An access, of `n` steps, whose activations are all for its key. -/
def accessOn (S : Schema V) (key : DynKey) (n : Nat) (c : Config V) : Option (Config V) :=
  (step S c (.spawn 0 key true)).bind fun m =>
    (Trans.run (fun m l => if (m.tasks c.taskCount).stack.all (·.key = key) then step S m l
      else none) m (List.replicate n (.step c.taskCount))).filter fun c' =>
        (c'.tasks c.taskCount).stack.isEmpty

/-- **Such an access changes nothing but what is held for its key.** -/
theorem runOp_of_accessOn {n : Nat} (h : accessOn S key n c = some c') :
    runOp S (n + 1) c (.access 0 key true) = some c' ∧ c.world.Frame key c'.world := by
  obtain ⟨m, hspawn, hsteps⟩ := Option.bind_eq_some_iff.mp h
  obtain ⟨hrun, hend⟩ := Option.filter_eq_some_iff.mp hsteps
  have hworld : m.world = c.world := by
    simp only [step] at hspawn
    split at hspawn <;> cases hspawn
    rfl
  rw [← hworld]
  simp only [runOp, hspawn]
  clear hspawn hworld hsteps h
  generalize c.taskCount = t at hrun hend ⊢
  induction n generalizing m with
  | zero =>
    obtain rfl := Option.some.inj hrun
    exact ⟨by simp only [finish, List.isEmpty_iff.mp hend], .refl _⟩
  | succ n ih =>
    simp only [List.replicate_succ, Trans.run] at hrun
    split at hrun
    · cases hrun
    · next m' hm =>
      split at hm
      · next hkeys =>
        obtain ⟨hfinish, hframe⟩ := ih m' hrun
        have hstep : stepTask S m t = some m' := hm
        refine ⟨?_, .trans ?_ hframe⟩
        · rw [finish]
          split
          · next hst => simp [stepTask, hst] at hstep
          · rw [hstep]
            exact hfinish
        · exact (taskStep_of_step hstep).frame fun a ha =>
            of_decide_eq_true (List.all_eq_true.mp hkeys a ha)
      · cases hm

end frame

end Picante

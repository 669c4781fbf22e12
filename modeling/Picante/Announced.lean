/-
# Changes are announced

`QueryChanged` is sent where a leader publishes a result that changed at its revision, and where a
follower takes one over.  The adoption of a record of the shared cache sends nothing.

* `stamps_are_announced` -- every change stamp that an access returns was announced, whatever the
  interleaving and whatever the compute functions do.
* `changes_are_announced` -- on the database, between two accesses to a query that return
  different values a change of the query is announced, at a revision between theirs.

`Known` stands for the announcements so far: a stamp is known wherever it is kept, except in the
straight-line part that is just about to announce it (`Activation.Stamped`).
-/
import Picante.Cutoff.Follow
import Picante.Forgetting
import Picante.Races

namespace Picante

open ReadProg Config

variable {V : Type}

/-! ## 1. Announcements -/

/-- A `QueryChanged` event, with the view whose runtime sends it. -/
structure QueryChanged where
  view : ViewId
  revision : Revision
  query : DynKey
  deriving DecidableEq, Repr

/-- The stamp of the result in a straight-line part that is at its update of the dependency graph
and has a `notify_query_changed` behind it: a leader's, and a follower's. -/
def stampToNotify : List (MicroOp V) → Option Revision
  | .updateDeps _ :: .setCell (.ready r) :: .notifyCell :: .putShared _ :: .setEntry _ :: _ =>
    some r.changedAt
  | .updateDeps _ :: .putShared F :: _ => some F.changedAt
  | _ => none

/-- The next step sends `QueryChanged`: `changed_at == rev`. -/
def Activation.announces (a : Activation V) : Bool :=
  match a.pc with
  | .finishing ops => stampToNotify ops == some a.rev
  | _ => false

/-- What the step announces: the call of `notify_query_changed` is taken with the update of the
dependency graph before it. -/
def Config.queryChanged (c : Config V) : Label V → List QueryChanged
  | .step t =>
    match (c.tasks t).stack with
    | [] => []
    | a :: _ => if a.announces then [⟨(c.tasks t).view, a.rev, a.key⟩] else []
  | _ => []

/-! ## 2. Where stamps are kept -/

section stamped

/-- The stamp of the operation meets `P`. -/
def MicroOp.Stamped (P : Revision → Prop) : MicroOp V → Prop
  | .setCell (.ready r) => P r.changedAt
  | .putShared F => P F.changedAt
  | .setEntry (.done _ _ ch) => P ch
  | .checked (.ok x) => P x.2
  | _ => True

/-- The stamp of a previous value meets `P`. -/
def Previous.Stamped (P : Revision → Prop) (prev : Previous V) : Prop := ∀ x ∈ prev, P x.2

/-- The stamps of a shared record and of the value before it meet `P`. -/
def Source.Stamped (P : Revision → Prop) : Source V → Prop
  | .cell .. => True
  | .shared F prev => P F.changedAt ∧ prev.Stamped P

/-- The stamps that an access may still pass on meet `P`. -/
def Pc.Stamped (P : Revision → Prop) : Pc V → Prop
  | .revalidate src _ | .touching src _ _ => src.Stamped P
  | .sharedGet prev | .lead prev | .computing prev _ _ | .reading prev _ _ _ => prev.Stamped P
  | .finishing ops => ∀ op ∈ ops, op.Stamped P
  | _ => True

variable (Known : DynKey → Revision → Prop)

/-- An access passes on stamps that are known, or that it is about to announce, and deals with
entries for its own query. -/
structure Activation.Stamped (R : Registry V) (a : Activation V) : Prop where
  pc : a.pc.Stamped fun ch => Known a.key ch ∨ a.announces ∧ ch = a.rev
  entry : ∀ e, a.pc.entry = some e → R.MadeFrom 0 e a.key
  guard : ∀ g, a.guard = some g → R.MadeFrom 0 g.entry a.key

/-- What is stored has stamps that are known. -/
structure World.Stamped (w : World V) : Prop where
  cells : ∀ i q r, w.state i q = .ready r → Known q r.changedAt
  shared : ∀ scope q F, w.shared scope q = some F → Known q F.changedAt
  registry : w.registry.Carries 0 fun q _ _ ch => Known q ch

structure Config.Stamped (c : Config V) : Prop where
  world : c.world.Stamped Known
  acts : ∀ t, ∀ a ∈ (c.tasks t).stack, a.Stamped Known c.world.registry

end stamped

variable {S : Schema V} {Known Known' : DynKey → Revision → Prop} {P P' : Revision → Prop}
  {R R' : Registry V} {q : DynKey} {w w' : World V} {view : ViewId} {a a' : Activation V}

theorem MicroOp.Stamped.imp (himp : ∀ ch, P ch → P' ch) {op : MicroOp V} (h : op.Stamped P) :
    op.Stamped P' := by
  cases op with
  | setCell st =>
    cases st with
    | ready r => exact himp _ h
    | _ => trivial
  | putShared F => exact himp _ h
  | setEntry st =>
    cases st with
    | done v deps ch => exact himp _ h
    | _ => trivial
  | checked r =>
    cases r with
    | ok x => exact himp _ h
    | error e => trivial
  | _ => trivial

theorem Previous.Stamped.imp (himp : ∀ ch, P ch → P' ch) {prev : Previous V}
    (h : prev.Stamped P) : prev.Stamped P' :=
  fun x hx => himp _ (h x hx)

theorem Source.Stamped.imp (himp : ∀ ch, P ch → P' ch) {src : Source V} (h : src.Stamped P) :
    src.Stamped P' := by
  cases src with
  | cell deps ch f => trivial
  | shared F prev => exact ⟨himp _ h.1, Previous.Stamped.imp himp h.2⟩

theorem Pc.Stamped.imp (himp : ∀ ch, P ch → P' ch) {pc : Pc V} (h : pc.Stamped P) :
    pc.Stamped P' := by
  cases pc with
  | revalidate src rest | touching src dep rest => exact Source.Stamped.imp himp h
  | sharedGet prev | lead prev | computing prev prog deps | reading prev d k deps =>
    exact Previous.Stamped.imp himp h
  | finishing ops => exact fun op hop => (h op hop).imp himp
  | _ => trivial

theorem Activation.Stamped.mono (h : a.Stamped Known R) (himp : ∀ q ch, Known q ch → Known' q ch)
    (hR : R.Extends R') : a.Stamped Known' R' where
  pc := h.pc.imp fun _ => Or.imp_left (himp _ _)
  entry e he := (h.entry e he).mono hR
  guard g hg := (h.guard g hg).mono hR

/-- Once it has announced what it was to announce, all its stamps are known. -/
theorem Activation.Stamped.known (h : a.Stamped Known R) (hsaid : a.announces → Known a.key a.rev) :
    a.pc.Stamped (Known a.key) := by
  refine h.pc.imp fun ch hch => ?_
  rcases hch with hch | ⟨hann, rfl⟩
  · exact hch
  · exact hsaid hann

theorem World.Stamped.imp (himp : ∀ q ch, Known q ch → Known' q ch) (h : w.Stamped Known) :
    w.Stamped Known' where
  cells i q r hr := himp _ _ (h.cells i q r hr)
  shared scope q F hF := himp _ _ (h.shared scope q F hF)
  registry := ⟨h.registry.next, h.registry.filed, fun e he v deps ch hs =>
    himp _ _ (h.registry.done e he v deps ch hs)⟩

theorem Config.Stamped.imp {c : Config V} (himp : ∀ q ch, Known q ch → Known' q ch)
    (h : c.Stamped Known) : c.Stamped Known' :=
  ⟨h.world.imp himp, fun t a ha => (h.acts t a ha).mono himp (.refl _)⟩

/-- Whatever is stored in `w'` was stored in `w`, for some view. -/
structure World.Stems (w w' : World V) : Prop where
  cells : ∀ i q r, w'.state i q = .ready r → ∃ j, w.state j q = .ready r
  shared : w'.shared = w.shared
  registry : w'.registry = w.registry

theorem World.Stamped.stems (h : w.Stamped Known) (hw : w.Stems w') : w'.Stamped Known where
  cells i q r hr := by
    obtain ⟨j, hj⟩ := hw.cells i q r hr
    exact h.cells j q r hj
  shared scope q F hF := h.shared scope q F (hw.shared ▸ hF)
  registry := hw.registry ▸ h.registry

theorem World.Same.stems (h : w.Same w') : w.Stems w' :=
  ⟨fun i q _ hr => ⟨i, (h.state i q).symm.trans hr⟩, h.shared, h.registry⟩

theorem stamped_init : (Config.init : Config V).Stamped Known where
  world :=
    { cells := fun _ _ _ h => by cases h
      shared := fun _ _ _ h => by cases h
      registry :=
        { next := Nat.le_refl _
          filed := fun _ _ h => by cases h
          done := fun _ _ _ _ _ h => by cases h } }
  acts _ _ ha := absurd ha List.not_mem_nil

/-- An access that starts has no stamps. -/
theorem stamped_enter (key : DynKey) : (Activation.enter key).Stamped Known R where
  pc := trivial
  entry _ he := by cases he
  guard _ hg := by cases hg

/-! ## 3. Steps -/

theorem stamped_adoptOps {rev : Revision} {F : SharedCacheRecord V} (h : P F.changedAt) :
    ∀ op ∈ adoptOps view rev F, op.Stamped P := by
  simpa [adoptOps, MicroOp.Stamped] using h

theorem stamped_afterRevalidation {rev : Revision} {src : Source V} (h : src.Stamped P) (b : Bool) :
    (afterRevalidation view rev src b).Stamped P := by
  cases src with
  | cell deps ch f => cases b <;> trivial
  | shared F prev =>
    cases b with
    | true => exact stamped_adoptOps h.1
    | false => exact h.2

theorem Touched.stamped {src : Source V} {rest : List Dep} {r : PicanteResult Revision}
    (ht : Touched w view a src rest r w' a') (h : src.Stamped P) : a'.pc.Stamped P := by
  cases ht with
  | unchanged _ => exact h
  | changed _ => exact stamped_afterRevalidation h false
  | failed => simp [Activation.moveTo, Pc.Stamped, MicroOp.Stamped]

theorem Touched.entry_none {src : Source V} {rest : List Dep} {r : PicanteResult Revision}
    (ht : Touched w view a src rest r w' a') : a'.pc.entry = none := by
  cases ht with
  | unchanged _ | failed => rfl
  | changed _ => exact entry_afterRevalidation ..

section step

variable [DecidableEq V] {task : TaskId} {below : List (Activation V)}

/-- **A leader's result is stamped as its previous value was, or announced next.** -/
theorem stamped_finalizeOps {key : DynKey} {rev : Revision} {guard : Option InFlightGuard}
    {prev : Previous V} {deps : List Dep} {out : PicanteResult V} (h : prev.Stamped P) :
    ∀ op ∈ finalizeOps view rev prev deps out, op.Stamped fun ch =>
      P ch ∨ (⟨key, rev, guard, .finishing (finalizeOps view rev prev deps out)⟩ :
        Activation V).announces ∧ ch = rev := by
  cases out with
  | error e => simp [finalizeOps, MicroOp.Stamped]
  | ok v =>
    have hch : P (changedAtOf prev rev v) ∨ changedAtOf prev rev v = rev := by
      unfold changedAtOf
      split
      · next v₀ ch₀ =>
        split
        · exact .inl (h _ rfl)
        · exact .inr rfl
      · exact .inr rfl
    have hann : changedAtOf prev rev v = rev → (⟨key, rev, guard, .finishing
        (finalizeOps view rev prev deps (.ok v))⟩ : Activation V).announces := by
      intro heq
      simp [Activation.announces, finalizeOps, stampToNotify, heq]
    have hstamp := hch.imp_right fun heq => And.intro (hann heq) heq
    intro op hop
    simp only [finalizeOps, List.mem_cons, List.not_mem_nil, or_false] at hop
    rcases hop with rfl | rfl | rfl | rfl | rfl | rfl | rfl | rfl <;> first | exact hstamp | trivial

/-- **What is stored after a step** has known stamps, if the access passes on such ones. -/
theorem World.Stamped.actStep (h : w.Stamped Known) (ha : a.Stamped Known w.registry)
    (hpc : a.pc.Stamped (Known a.key)) (hstep : ActStep S w view task below a w' (.goto a')) :
    w'.Stamped Known ∧ w.registry.Extends w'.registry := by
  obtain ⟨hregistry, hext⟩ := h.registry.actStep (a := a) (fun v deps ch ops g hops hg => by
    rw [hops] at hpc
    have hop : (MicroOp.setEntry (.done v deps ch)).Stamped (Known a.key) :=
      hpc _ (List.mem_cons_self ..)
    rw [(ha.guard g hg).2.2]
    exact hop) hstep
  refine ⟨⟨fun i q r hr => ?_, fun scope q F hF => ?_, hregistry⟩, hext⟩
  · by_cases hk : i = view ∧ q = a.key
    · obtain ⟨rfl, rfl⟩ := hk
      rcases hstep.cellStep with hs | hs | ⟨started, o, hs⟩ | ⟨r₀, -, hs₀, hs⟩ | ⟨st, ops, hops, hs⟩
      · exact h.cells i _ r (hs.symm.trans hr)
      · cases hs.symm.trans hr
      · cases hs.symm.trans hr
      · cases hs.symm.trans hr
        exact h.cells i _ r₀ hs₀
      · obtain rfl := hs.symm.trans hr
        rw [hops] at hpc
        exact hpc _ (List.mem_cons_self ..)
    · have hs : w'.state i q = w.state i q := congrArg ErasedCell.state (hstep.cell_other hk)
      exact h.cells i q r (hs.symm.trans hr)
  · cases hstep with
    | touchInput _ _ ht | touchInterned _ _ _ ht =>
      rw [ht.same.shared] at hF
      exact h.shared scope q F hF
    | sharedMiss _ hlook _ =>
      rcases hlook with rfl | rfl
      · exact h.shared scope q F hF
      · have hF' := (World.shared_evictShared ..).symm.trans hF
        split at hF'
        · cases hF'
        · exact h.shared scope q F hF'
    | putShared hops =>
      rw [hops] at hpc
      rw [World.shared_putShared] at hF
      split at hF
      · next heq =>
        obtain rfl := Option.some.inj hF
        rw [heq.2]
        exact hpc _ (List.mem_cons_self ..)
      · exact h.shared scope q F hF
    | _ => exact h.shared scope q F hF

/-- **The stamps an access passes on after a step.** -/
theorem Activation.Stamped.goto (h : w.Stamped Known) (ha : a.Stamped Known w.registry)
    (hpcOk : a.pc.Stamped (Known a.key)) (hstep : ActStep S w view task below a w' (.goto a')) :
    a'.Stamped Known w'.registry := by
  have hext := (h.actStep ha hpcOk hstep).2
  refine ⟨?_, fun e he => ?_, fun g hg => ?_⟩
  · -- all but the result of a computation is known already
    by_cases hfinal : ∃ prev out deps, a.pc = .computing prev (.done out) deps
    · obtain ⟨prev, out, deps, hpc⟩ := hfinal
      cases hstep with
      | finalize hpc' =>
        rw [hpc'] at hpcOk
        exact stamped_finalizeOps hpcOk
      | _ => simp_all
    · suffices hknown : a'.pc.Stamped (Known a'.key) from hknown.imp fun _ => .inl
      cases hstep with
      | hit _ hs _ | reverify _ hs =>
        simpa [Activation.moveTo, Pc.Stamped, MicroOp.Stamped] using h.cells _ _ _ hs
      | start _ hs =>
        rcases hs with ⟨r, hs, -, rfl⟩ | ⟨-, rfl⟩
        · intro x hx
          obtain rfl := Option.some.inj hx
          exact h.cells _ _ _ hs
        · exact fun x hx => by cases hx
      | sharedStale hpc hs _ =>
        rw [hpc] at hpcOk
        exact ⟨h.shared _ _ _ hs, hpcOk⟩
      | sharedHit _ hs _ => exact stamped_adoptOps (h.shared _ _ _ hs)
      | accept hpc =>
        rw [hpc] at hpcOk
        exact stamped_afterRevalidation hpcOk true
      | unregistered hpc _ =>
        rw [hpc] at hpcOk
        exact stamped_afterRevalidation hpcOk false
      | touchInput hpc _ ht | touchInterned hpc _ _ ht =>
        rw [hpc] at hpcOk
        rw [ht.key]
        exact ht.stamped hpcOk
      | followDone hpc hs =>
        have hdone := h.registry.done _ (Nat.zero_le _) _ _ _ hs
        rw [(ha.entry _ (by rw [hpc]; rfl)).2.2] at hdone
        simpa [Activation.moveTo, Pc.Stamped, followOps, MicroOp.Stamped] using hdone
      | finalize hpc => exact absurd ⟨_, _, _, hpc⟩ hfinal
      | sharedMiss hpc _ _ | lead hpc _ | readInput hpc _ | readInterned hpc _ _
      | readMissing hpc _ _ | readCycle hpc _ _ =>
        rw [hpc] at hpcOk
        exact hpcOk
      | updateDeps hpc | setCell hpc | notifyCell hpc | putShared hpc | setEntry hpc _
      | notifyEntry hpc _ | unregister hpc _ | unguarded hpc _ _ =>
        rw [hpc] at hpcOk
        exact fun op hop => hpcOk op (List.mem_cons_of_mem _ hop)
      | poison _ _ | touchMissing _ _ _ | touchCycle _ _ _ | followFailed _ _ =>
        simp [Activation.moveTo, Pc.Stamped, followFailedOps, MicroOp.Stamped]
      | _ => trivial
  · cases hstep with
    | follow _ hf =>
      cases he
      exact h.registry.filed _ _ hf
    | followReset hpc | followListen hpc | followPark hpc | followWake hpc =>
      cases he
      exact (ha.entry _ (by rw [hpc]; rfl)).mono hext
    | accept _ | unregistered _ _ => cases (entry_afterRevalidation ..).symm.trans he
    | touchInput _ _ ht | touchInterned _ _ _ ht => cases ht.entry_none.symm.trans he
    | _ => cases he
  · cases hstep with
    | lead hpc _ =>
      cases hg
      exact ⟨Nat.zero_le _, Nat.lt_succ_self _, by simp [World.modifyRegistry, Registry.lead]⟩
    | unregister _ _ => cases hg
    | touchInput _ _ ht | touchInterned _ _ _ ht =>
      rw [ht.key]
      exact (ha.guard g (ht.guard.1 ▸ hg)).mono hext
    | _ => exact (ha.guard g hg).mono hext

/-- An access that asks for another one keeps its stamps. -/
theorem Activation.Stamped.call {child : DynKey} (ha : a.Stamped Known R)
    (hstep : ActStep S w view task below a w' (.call a' child)) :
    w' = w ∧ a'.Stamped Known R := by
  cases hstep with
  | touchCall hpc _ _ | readCall hpc _ _ =>
    have hknown := ha.known fun hann => by simp [Activation.announces, hpc] at hann
    rw [hpc] at hknown
    exact ⟨rfl, hknown.imp fun _ => .inl, fun _ he => (by cases he), ha.guard⟩

omit [DecidableEq V] in
/-- An access that goes on with the result of another one keeps its stamps. -/
theorem Activation.Stamped.resumed {p p' : Activation V} {r : AccessResult V}
    (hp : p.Stamped Known R) (hr : Resumed w view p r w' p') : p'.Stamped Known R := by
  cases hr with
  | touched hpc ht =>
    have hknown := hp.known fun hann => by simp [Activation.announces, hpc] at hann
    rw [hpc] at hknown
    refine ⟨?_, fun e he => ?_, fun g hg => ?_⟩
    · rw [ht.key]
      exact (ht.stamped hknown).imp fun _ => .inl
    · cases ht.entry_none.symm.trans he
    · rw [ht.key]
      exact hp.guard g (ht.guard.1 ▸ hg)
  | answered hpc =>
    have hknown := hp.known fun hann => by simp [Activation.announces, hpc] at hann
    rw [hpc] at hknown
    exact ⟨hknown.imp fun _ => .inl, fun _ he => (by cases he), hp.guard⟩
  | idle _ => exact hp

end step

/-! ## 4. Runs -/

section runs

variable [DecidableEq V] {c c' : Config V} {t : TaskId}

/-- **A step of a task**, after which what it announces is known. -/
theorem Config.Stamped.taskStep (h : c.Stamped Known) (hstep : TaskStep S c t c')
    (hsaid : ∀ e ∈ c.queryChanged (.step t), Known e.query e.revision) : c'.Stamped Known := by
  have hold := h.acts t
  have hacts := fun (R : Registry V) (hext : c.world.registry.Extends R) =>
    hstep.acts (P := fun a => a.Stamped Known R) fun t a ha =>
      (h.acts t a ha).mono (fun _ _ => id) hext
  cases hstep with
  | @goto a a' below w hst ha =>
    rw [hst] at hold
    obtain ⟨hatop, hbelow⟩ := List.forall_mem_cons.mp hold
    have hknown : a.pc.Stamped (Known a.key) := hatop.known fun hann =>
      hsaid ⟨(c.tasks t).view, a.rev, a.key⟩ (by simp [queryChanged, hst, hann])
    obtain ⟨hworld, hext⟩ := h.world.actStep hatop hknown ha
    refine ⟨hworld, hacts _ hext ?_⟩
    have hstack : ∀ b ∈ a' :: below, b.Stamped Known w.registry :=
      List.forall_mem_cons.mpr ⟨hatop.goto h.world hknown ha,
        fun b hb => (hbelow b hb).mono (fun _ _ => id) hext⟩
    simpa [setTask] using hstack
  | @call a a' below w child hst ha =>
    rw [hst] at hold
    obtain ⟨hatop, hbelow⟩ := List.forall_mem_cons.mp hold
    obtain ⟨rfl, ha'⟩ := hatop.call ha
    refine ⟨h.world, hacts _ (.refl _) ?_⟩
    have hstack : ∀ b ∈ .enter child :: a' :: below, b.Stamped Known c.world.registry :=
      List.forall_mem_cons.mpr ⟨stamped_enter child,
        List.forall_mem_cons.mpr ⟨ha', hbelow⟩⟩
    simpa [setTask] using hstack
  | ret hst ha =>
    obtain rfl := ha.ret_world
    exact ⟨h.world, hacts _ (.refl _) (by simp [setTask])⟩
  | @resume a p p' below w w' r hst ha hp =>
    rw [hst] at hold
    obtain ⟨-, hp₀, hbelow⟩ := by simpa using hold
    obtain rfl := ha.ret_world
    have hreg := hp.same.registry
    refine ⟨h.world.stems hp.same.stems, hacts _ (hreg ▸ .refl _) ?_⟩
    have hstack : ∀ b ∈ p' :: below, b.Stamped Known w'.registry :=
      List.forall_mem_cons.mpr ⟨hreg ▸ hp₀.resumed hp, fun b hb => hreg ▸ hbelow b hb⟩
    simpa [setTask] using hstack

omit [DecidableEq V] in
theorem World.Stems.refl (w : World V) : w.Stems w := ⟨fun i _ _ h => ⟨i, h⟩, rfl, rfl⟩

theorem World.Stems.mutator {m m' : Mutator V} (hm : stepMutator w m = some (w', m')) :
    w.Stems w' := by
  unfold stepMutator at hm
  split at hm
  · split at hm <;> cases hm <;> exact .refl _
  · cases hm
    exact ⟨fun i q r hr => ⟨i, by simpa using hr⟩, rfl, rfl⟩
  · cases hm
    exact ⟨fun i q r hr => ⟨i, by simpa [World.state] using hr⟩, rfl, rfl⟩
  · cases hm
    exact ⟨fun i q r hr => ⟨i, by simpa using hr⟩, rfl, rfl⟩
  · cases hm

theorem World.Stems.mutate (k : DynKey) (value : Option V) :
    w.Stems (mutateWorld w view k value) := by
  unfold mutateWorld
  split
  · exact .refl _
  · exact ⟨fun i q r hr => ⟨i, by simpa [World.state] using hr⟩, rfl, rfl⟩

omit [DecidableEq V] in
theorem World.Stems.snapshot (w : World V) : w.Stems w.snapshot := by
  refine ⟨fun i q r hr => ?_, rfl, rfl⟩
  rw [World.state_snapshot] at hr
  split at hr
  · exact ⟨0, ErasedCell.ready_of_snapshot hr⟩
  · exact ⟨i, hr⟩

omit [DecidableEq V] in
/-- The world changes beside the tasks. -/
theorem Config.Stamped.beside (h : c.Stamped Known) (hw : c.world.Stems w)
    (ms : List (Mutator V)) : ({ c with world := w, mutators := ms } : Config V).Stamped Known :=
  ⟨h.world.stems hw, fun t a ha => hw.registry ▸ h.acts t a ha⟩

/-- **Every step keeps stamps known**, if what it announces is. -/
theorem Config.Stamped.step {l : Label V} (h : c.Stamped Known)
    (hs : Config.step S c l = some c')
    (hsaid : ∀ e ∈ c.queryChanged l, Known e.query e.revision) : c'.Stamped Known := by
  cases l with
  | step t => exact h.taskStep (taskStep_of_step hs) hsaid
  | spawn view key want =>
    simp only [Config.step] at hs
    split at hs <;> cases hs
    refine ⟨h.world, fun t a ha => ?_⟩
    by_cases ht : t = c.taskCount
    · subst ht
      obtain rfl : a = .enter key := by simpa using ha
      exact stamped_enter _
    · simp only [Function.update_of_ne ht] at ha
      exact h.acts t a ha
  | drop t =>
    have hs' : dropTask c t = some c' := hs
    unfold dropTask at hs'
    split at hs'
    · cases hs'
    · next a below hst =>
      split at hs' <;> cases hs'
      obtain ⟨hreg, hext, hshared⟩ := h.world.registry.cancelled (a :: below)
      refine ⟨⟨fun i q r hr => h.world.cells i q r ?_, hshared ▸ h.world.shared, hreg⟩,
        fun t' b hb => ?_⟩
      · have hcell : (cancelGuards c.world (a :: below)).state i q = c.world.state i q :=
          congrArg ErasedCell.state (cell_cancelGuards ..)
        exact hcell.symm.trans hr
      · by_cases ht : t' = t
        · subst ht
          simp [setTask] at hb
        · have hb' : b ∈ (c.tasks t').stack := by simpa [setTask, Function.update_of_ne ht] using hb
          exact (h.acts t' b hb').mono (fun _ _ => id) hext
  | mutate view key value =>
    simp only [Config.step] at hs
    split at hs <;> cases hs
    exact h.beside (.mutate key value) c.mutators
  | «begin» view key value =>
    simp only [Config.step] at hs
    split at hs <;> cases hs
    exact h.beside (.refl _) _
  | advance m =>
    simp only [Config.step] at hs
    split at hs
    · cases hs
    · split at hs
      · cases hs
      · next hm =>
        cases hs
        exact h.beside (.mutator hm) _
  | intern kind value =>
    cases hs
    exact h.beside (w := c.world.intern kind value) ⟨fun i _ _ hr => ⟨i, hr⟩, rfl, rfl⟩ c.mutators
  | bump view =>
    simp only [Config.step] at hs
    split at hs <;> cases hs
    exact h.beside (w := c.world.modifyRuntime view (·.bumpRevision))
      ⟨fun i q r hr => ⟨i, by simpa using hr⟩, rfl, rfl⟩ c.mutators
  | snapshot =>
    cases hs
    exact h.beside (.snapshot _) c.mutators

/-- A change of the query at the revision was announced. -/
def Announced (H : List QueryChanged) (q : DynKey) (ch : Revision) : Prop :=
  ∃ e ∈ H, e.query = q ∧ e.revision = ch

/-- **Along every run, all stamps were announced.** -/
theorem stamped_run {ok : Config V → Label V → Config V → Prop} {ls : List (Label V)}
    (h : Trans.Steps (step S) ok init ls c) :
    c.Stamped (Announced (Trans.shown (step S) queryChanged init ls)) := by
  induction h with
  | nil => exact stamped_init
  | @snoc ls l m c hls hl _ ih =>
    rw [hls.shown_snoc hl]
    refine (ih.imp fun q ch ⟨e, he, hq⟩ => ⟨e, List.mem_append_left _ he, hq⟩).step hl ?_
    exact fun e he => ⟨e, List.mem_append_right _ he, rfl, rfl⟩

/-- A returned stamp is known. -/
theorem Config.Stamped.returned (h : c.Stamped Known) {q : DynKey} {v : V} {ch : Revision}
    (hret : c.Returns S t q (.ok (v, ch))) : Known q ch := by
  obtain ⟨a, below, ops, hst, rfl, hpc, -⟩ := returns_ok hret
  have ha := h.acts t a (hst ▸ List.mem_cons_self ..)
  have hknown := ha.known fun hann => by simp [Activation.announces, stampToNotify, hpc] at hann
  rw [hpc] at hknown
  exact hknown _ (List.mem_cons_self ..)

/-- **Every change stamp was announced.**  Whatever the interleaving of accesses, changes,
snapshots and dropped tasks, and whatever the compute functions do: where an access returns a
value, `QueryChanged` has been sent for its query at the revision of its change stamp. -/
theorem stamps_are_announced {ok : Config V → Label V → Config V → Prop} {ls : List (Label V)}
    {q : DynKey} {v : V} {ch : Revision} (h : Trans.Steps (step S) ok init ls c)
    (hret : c.Returns S t q (.ok (v, ch))) :
    ∃ e ∈ Trans.shown (step S) queryChanged init ls, e.query = q ∧ e.revision = ch :=
  (stamped_run h).returned hret

end runs

namespace Announced

open Cancellation (x nested)

/-- `nested` is computed for 1, up to the step that returns it. -/
def first : List (Label Nat) :=
  [.mutate 0 x (some 1), .spawn 0 nested true] ++ List.replicate 15 (.step 0)

/-- It is returned, `x` becomes 2, and `nested` is accessed again, up to the step that returns. -/
def second : List (Label Nat) :=
  [.step 0, .mutate 0 x (some 2), .spawn 0 nested true] ++ List.replicate 17 (.step 1)

end Announced

open Announced Cancellation in
/-- The first value of `nested` is announced for revision 1. -/
theorem first_stamp_is_announced :
    ∃ c, Trans.run (step schema) init first = some c ∧ c.Returns schema 0 nested (.ok (1, 1)) ∧
      ∃ e ∈ Trans.shown (step schema) queryChanged init first,
        e.query = nested ∧ e.revision = 1 := by
  have hrun : (Trans.run (step schema) init first).any
      (fun c => c.returning schema 0 = some (nested, 1, 1)) := by decide +kernel
  obtain ⟨c, hc, hret⟩ := (Option.any_eq_true ..).mp hrun
  have hret := returns_of_returning (of_decide_eq_true hret)
  exact ⟨c, hc, hret, stamps_are_announced (Trans.Steps.of_run hc) hret⟩

/-! ## 5. Changes on the database -/

namespace Spec

variable {T : Spec V} {p : Past V} {c : Config V} {t : TaskId}

/-- What is announced has a revision and a view that have been reached. -/
theorem Consistent.announced (h : T.Consistent p c) {l : Label V} :
    ∀ e ∈ c.queryChanged l, e.revision ≤ c.world.rev 0 ∧ e.view < c.world.viewCount := by
  intro e he
  cases l with
  | step t =>
    simp only [queryChanged] at he
    split at he
    · exact absurd he List.not_mem_nil
    · next a below hst =>
      split at he
      · next hann =>
        obtain rfl := List.mem_singleton.mp he
        have hstack := h.stacked t
        rw [hst] at hstack
        have hne : a.pc ≠ .top := fun htop => by simp [Activation.announces, htop] at hann
        exact ⟨Nat.le_trans (hstack.1.rev_le hne) (h.world.rev_le _),
          h.views t (pending_of_stack hst)⟩
      · exact absurd he List.not_mem_nil
  | _ => exact absurd he List.not_mem_nil

variable [DecidableEq V]

/-- **A value that is returned is sound**, and on record if it is the database's. -/
theorem Consistent.value (h : T.Consistent p c) {q : DynKey} {v : V} {ch : Revision}
    (hret : c.Returns T.schema t q (.ok (v, ch))) (hview : (c.tasks t).view = 0) :
    T.Sound p c.world (c.world.rev 0) q v ch ∧
      p.answer q (c.world.rev 0) = some (.ok (some v)) := by
  obtain ⟨a, below, w, hst, rfl, hact⟩ := hret
  have hstack := h.stacked t
  rw [hst, hview] at hstack
  rw [hview] at hact
  obtain ⟨-, -, hrev, hok⟩ := Spec.ActStep.returned hstack.1 (actStep_of_step hact)
  have hrev' := hrev _ rfl
  obtain ⟨hsound, hanswer⟩ := hok hrev'
  rw [hrev'] at hsound hanswer
  exact ⟨hsound, hanswer rfl⟩

/-- All announcements of an orderly run have revisions and views that have been reached. -/
theorem announced_run {ls : List (Label V)} (hT : T.Fits)
    (h : Trans.Steps (step T.schema) (Orderly T.account) init ls c) :
    ∀ e ∈ Trans.shown (step T.schema) queryChanged init ls,
      e.revision ≤ c.world.rev 0 ∧ e.view < c.world.viewCount := by
  induction h with
  | nil => exact fun _ he => absurd he List.not_mem_nil
  | @snoc ls l m c hls hl ho ih =>
    obtain ⟨p, -, hp, hup⟩ := later_run hT (consistent_init T) upToDate_init hls
    obtain ⟨p', hlater, -⟩ := later_step hT hp hup hl ho
    have hreached : ∀ e : QueryChanged, e.revision ≤ m.world.rev 0 ∧ e.view < m.world.viewCount →
        e.revision ≤ c.world.rev 0 ∧ e.view < c.world.viewCount := fun e he =>
      ⟨Nat.le_trans he.1 (hlater.rev_le 0 hp.world.nonempty),
        Nat.lt_of_lt_of_le he.2 hlater.viewCount⟩
    rw [hls.shown_snoc hl]
    intro e he
    rcases List.mem_append.mp he with he | he
    · exact hreached e (ih e he)
    · exact hreached e (hp.announced e he)

end Spec

/-- A run that was checked to be prompt, and met nothing foreign, is orderly. -/
theorem orderly_of_promptly [DecidableEq V] {ls : List (Label V)} {c₁ c₂ : Config V}
    (h : Trans.run (fun c l => if c.promptly l then step S c l else none) c₁ ls = some c₂)
    (hlog : ∀ e ∈ c₂.world.log, e.foreign = false) :
    Trans.Steps (step S) (Orderly .values) c₁ ls c₂ := by
  refine orderly_of_log ((Trans.Steps.of_checked_run _ h).mono fun _ _ _ hok =>
    asked_of_promptly hok.2) fun e he => allows_values (hlog e he)

/-- **A change is announced before it is seen.**  Whatever the interleaving of accesses on the
database and its snapshots with changes of the database: if two accesses to a query on the
database return different values, `QueryChanged` is sent for the query between them, at a
revision after that of the first and not after that of the second, as long as every step does
what is asked of it.  Without snapshots it is the database that sends it. -/
theorem changes_are_announced [DecidableEq V] {body : DynKey → Query V} {acc : Account}
    {ls₁ ls₂ : List (Label V)} {c₁ c₂ : Config V} {t₁ t₂ : TaskId} {q : DynKey} {v₁ v₂ : V}
    {ch₁ ch₂ : Revision} (hdet : ∀ n q, S.compute n q = body q) (hsuits : acc.Suits body)
    (h₁ : Trans.Steps (step S) (Orderly acc) init ls₁ c₁)
    (hret₁ : c₁.Returns S t₁ q (.ok (v₁, ch₁))) (hview₁ : (c₁.tasks t₁).view = 0)
    (h₂ : Trans.Steps (step S) (Orderly acc) c₁ ls₂ c₂)
    (hret₂ : c₂.Returns S t₂ q (.ok (v₂, ch₂))) (hview₂ : (c₂.tasks t₂).view = 0)
    (hne : v₁ ≠ v₂) :
    ∃ e ∈ Trans.shown (step S) queryChanged c₁ ls₂, e.query = q ∧
      c₁.world.rev 0 < e.revision ∧ e.revision ≤ c₂.world.rev 0 ∧
        e.view < c₂.world.viewCount := by
  have hT : Spec.Fits ⟨S, body, acc⟩ := ⟨hdet, hsuits⟩
  obtain ⟨p, -, hp, hup⟩ := Spec.later_run (T := ⟨S, body, acc⟩) hT (Spec.consistent_init _)
    Spec.upToDate_init h₁
  obtain ⟨p', hlater, hp', -⟩ := Spec.later_run hT hp hup h₂
  obtain ⟨-, hanswer₁⟩ := hp.value hret₁ hview₁
  obtain ⟨hsound, hanswer₂⟩ := hp'.value hret₂ hview₂
  have hkept := hlater.answer _ _ _ hanswer₁
  have hdiff : (.ok (some v₁) : PicanteResult (Option V)) ≠ .ok (some v₂) := fun heq =>
    hne (Option.some.inj (Except.ok.inj heq))
  -- a stamp up to the first revision would be contradicted by the first answer
  have hstamp : c₁.world.rev 0 < ch₂ := by
    refine Nat.lt_of_not_le fun hle => hdiff ?_
    rcases Nat.lt_or_ge (c₁.world.rev 0) (c₂.world.rev 0) with hlt | hge
    · exact hsound.honest _ hle hlt _ hkept
    · have heq := Nat.le_antisymm (hlater.rev_le 0 hp.world.nonempty) hge
      rw [heq, hanswer₂] at hkept
      exact (Option.some.inj hkept).symm
  obtain ⟨e, he, hquery, hrevision⟩ := (stamped_run (h₁.trans h₂)).returned hret₂
  have hreached := Spec.announced_run hT (h₁.trans h₂) e he
  rw [Trans.shown_append h₁.run] at he
  rcases List.mem_append.mp he with hold | hnew
  · have hle := (Spec.announced_run hT h₁ e hold).1
    exact absurd (Nat.lt_of_lt_of_le (hrevision ▸ hstamp) hle) (Nat.lt_irrefl _)
  · exact ⟨e, hnew, hquery, hrevision ▸ hstamp, hreached.1, hreached.2⟩

open Announced Cancellation in
/-- `nested` returns 1, then 2, and is announced in between. -/
theorem second_value_is_announced :
    ∃ c₁ c₂, Trans.Steps (step schema) (Orderly .values) init first c₁ ∧
      Trans.Steps (step schema) (Orderly .values) c₁ second c₂ ∧
        ∃ e ∈ Trans.shown (step schema) queryChanged c₁ second, e.query = nested ∧
          c₁.world.rev 0 < e.revision ∧ e.revision ≤ c₂.world.rev 0 ∧
            e.view < c₂.world.viewCount := by
  have hrun : (Trans.run (fun c l => if c.promptly l then step schema c l else none) init
      first).any (fun c₁ => c₁.returning schema 0 = some (nested, 1, 1) ∧ (c₁.tasks 0).view = 0 ∧
        (∀ e ∈ c₁.world.log, e.foreign = false) ∧
        (Trans.run (fun c l => if c.promptly l then step schema c l else none) c₁
          second).any fun c₂ => c₂.returning schema 1 = some (nested, 2, 2) ∧
            (c₂.tasks 1).view = 0 ∧ ∀ e ∈ c₂.world.log, e.foreign = false) := by decide +kernel
  obtain ⟨c₁, hc₁, hrest⟩ := (Option.any_eq_true ..).mp hrun
  obtain ⟨hret₁, hview₁, hlog₁, hrest⟩ := of_decide_eq_true hrest
  obtain ⟨c₂, hc₂, hrest⟩ := (Option.any_eq_true ..).mp hrest
  obtain ⟨hret₂, hview₂, hlog₂⟩ := of_decide_eq_true hrest
  have h₁ := orderly_of_promptly hc₁ hlog₁
  have h₂ := orderly_of_promptly hc₂ hlog₂
  exact ⟨c₁, c₂, h₁, h₂, changes_are_announced (fun _ _ => rfl) (fun _ => body_propagates) h₁
    (returns_of_returning hret₁) hview₁ h₂ (returns_of_returning hret₂) hview₂ (by decide)⟩

/-- `nested` is returned, `x` becomes 2, a snapshot computes `nested`, and then the database is
asked for it. -/
def Announced.adopting : List (Label Nat) :=
  [.step 0, .mutate 0 Cancellation.x (some 2), .snapshot, .spawn 1 Cancellation.nested true] ++
    List.replicate 18 (.step 1) ++ .spawn 0 Cancellation.nested true :: List.replicate 11 (.step 2)

open Announced Cancellation in
/-- The database adopts the record of the snapshot and returns 2; only the snapshot announces it. -/
example :
    (Trans.run (step schema) init (first ++ adopting)).any
      (fun c => (c.tasks 2).result = some (.ok (2, 2))) ∧
    Trans.shown (step schema) queryChanged init (first ++ adopting) =
      [⟨0, 1, nested⟩, ⟨1, 2, nested⟩] := by decide +kernel

end Picante

/-
# Who waits for whom

A task waits for a cell that an access of another task works for, or for the in-flight entry of
another task.  `find_cycle` sees the stack of one task only, so nothing breaks a cycle of waiting
tasks.

The queries of such a cycle call one another round in a circle, but they need not have done so over
the inputs of one revision: a computation goes on while inputs change under it, and what it has
called before is not taken back (`deadlock_of_two_revisions`).  If the calls of all revisions
taken together have no cycle, no tasks wait for one another (`no_deadlock_without_call_cycle`).

* `WaitsFor` -- a task waits for another one.
* `Calls` -- a step in which a computation reads a derived key.
* `Traced` -- whatever is on record for a query is a list of calls it has made.
-/
import Picante.Consistency
import Picante.Cutoff.Follow

namespace Picante

open Config Relation

variable {V : Type}

/-! ## 1. Descent -/

/-- Where every step goes down a relation, or stays and is followed by one that goes down, a cycle
of steps is a cycle of the relation. -/
theorem acyclic_of_descent {T K : Type} {W : T → T → Prop} {E : K → K → Prop} {f : T → K}
    (hE : ∀ k, ¬ TransGen E k k) (hweak : ∀ t u, W t u → ReflTransGen E (f t) (f u))
    (hstrict : ∀ t u v x, W t u → W u v → W v x → TransGen E (f t) (f v)) (t : T) :
    ¬ TransGen W t t := by
  intro hcycle
  obtain ⟨u, htu, hback⟩ := TransGen.head'_iff.mp hcycle
  have hlift : ∀ {x y}, ReflTransGen W x y → ReflTransGen E (f x) (f y) := by
    intro x y h
    induction h with
    | refl => exact .refl
    | tail _ hyz ih => exact ih.trans (hweak _ _ hyz)
  rcases hback.cases_head with rfl | ⟨v, huv, hback⟩
  · exact hE _ (hstrict _ _ _ _ htu htu htu)
  · obtain ⟨x, hvx⟩ : ∃ x, W v x := by
      rcases hback.cases_head with rfl | ⟨x, hvx, -⟩
      · exact ⟨u, htu⟩
      · exact ⟨x, hvx⟩
    exact hE _ ((hstrict _ _ _ _ htu huv hvx).trans_left (hlift hback))

/-! ## 2. Waiting -/

/-- A task waits for another one. -/
inductive Config.WaitsFor (c : Config V) (t t' : TaskId) : Prop
  /-- parked on a cell that an access of the other task works for -/
  | cell {a b : Activation V} {below : List (Activation V)} {seen d : Nat}
      (hst : (c.tasks t).stack = a :: below) (hpc : a.pc = .parked seen) (hb : c.act t' d = some b)
      (hview : (c.tasks t').view = (c.tasks t).view) (hkey : b.key = a.key)
      (hworks : b.pc.works = true)
  /-- parked on an entry that an access of the other task leads -/
  | entry {a b : Activation V} {below : List (Activation V)} {e : EntryId} {seen d : Nat}
      {g : InFlightGuard} (hst : (c.tasks t).stack = a :: below)
      (hpc : a.pc = .followParked e seen) (hb : c.act t' d = some b) (hg : b.guard = some g)
      (he : g.entry = e)

/-- With the next step the computation of `q` reads the derived key `d`. -/
def Config.Calls (S : Schema V) (c : Config V) (l : Label V) (q d : DynKey) : Prop :=
  ∃ t a below prev k deps, l = .step t ∧ (c.tasks t).stack = a :: below ∧ a.key = q ∧
    a.pc = .computing prev (.read d k) deps ∧ S.sectionType d.kind = .derived

/-! ## 3. What is on record -/

section traced

variable (S : Schema V) (E : DynKey → DynKey → Prop)

/-- The derived keys of the list are called by `q`. -/
def Traces (q : DynKey) (deps : List Dep) : Prop :=
  ∀ d ∈ deps, S.sectionType d.kind = .derived → E q d

/-- The entry was made for `q`. -/
def Registry.Made (R : Registry V) (e : EntryId) (q : DynKey) : Prop :=
  e < R.nextEntry ∧ (R.entries e).key.query = q

/-- What is stored for `q` comes with a list of its calls. -/
def MicroOp.Traced (q : DynKey) : MicroOp V → Prop
  | .setCell (.ready r) => Traces S E q r.deps
  | .putShared F => Traces S E q F.deps
  | .setEntry (.done _ deps _) => Traces S E q deps
  | _ => True

/-- What an access to `q` goes through is a list of its calls, and what it waits for one of them. -/
def Pc.Traced (R : Registry V) (q : DynKey) : Pc V → Prop
  | .revalidate src rest => Traces S E q src.deps ∧ Traces S E q rest
  | .touching src dep rest => (Traces S E q src.deps ∧ Traces S E q rest) ∧ E q dep
  | .computing _ _ deps => Traces S E q deps
  | .reading _ d _ deps => Traces S E q deps ∧ E q d
  | .followReset e | .followListen e | .followRead e _ | .followParked e _ => R.Made e q
  | .finishing ops => ∀ op ∈ ops, op.Traced S E q
  | _ => True

structure Activation.Traced (R : Registry V) (a : Activation V) : Prop where
  pc : a.pc.Traced S E R a.key
  guard : ∀ g, a.guard = some g → R.Made g.entry a.key

structure Registry.Traced (R : Registry V) : Prop where
  filed : ∀ k e, R.filed k = some e → R.Made e k.query
  done : ∀ e v deps ch, (R.entries e).state = .done v deps ch →
    Traces S E (R.entries e).key.query deps

structure World.Traced (w : World V) : Prop where
  cells : ∀ i q r, w.state i q = .ready r → Traces S E q r.deps
  shared : ∀ scope q F, w.shared scope q = some F → Traces S E q F.deps
  registry : w.registry.Traced S E

/-- Whatever is on record for a query, and whatever an access goes through, is a list of calls. -/
structure Config.Traced (c : Config V) : Prop where
  world : c.world.Traced S E
  acts : ∀ t, ∀ a ∈ (c.tasks t).stack, a.Traced S E c.world.registry
  nested : ∀ t, Nested (c.tasks t).stack

end traced

variable {S : Schema V} {E : DynKey → DynKey → Prop} {R R' : Registry V} {q : DynKey}
  {w w' : World V} {view : ViewId} {a a' : Activation V}

theorem Registry.made_iff {e : EntryId} : R.Made e q ↔ R.MadeFrom 0 e q :=
  (and_iff_right (Nat.zero_le e)).symm

theorem Registry.Made.mono {e : EntryId} (h : R.Made e q) (hR : R.Extends R') : R'.Made e q :=
  made_iff.mpr ((made_iff.mp h).mono hR)

theorem Pc.Traced.mono {pc : Pc V} (h : pc.Traced S E R q) (hR : R.Extends R') :
    pc.Traced S E R' q := by
  cases pc with
  | followReset e | followListen e | followRead e seen | followParked e seen =>
    exact Registry.Made.mono h hR
  | _ => exact h

theorem Activation.Traced.mono (h : a.Traced S E R) (hR : R.Extends R') : a.Traced S E R' :=
  ⟨h.pc.mono hR, fun g hg => (h.guard g hg).mono hR⟩

/-- Whoever waits has made a call. -/
theorem Pc.Traced.calls {pc : Pc V} (h : pc.Traced S E R q) {d : DynKey} (hwait : pc.waitsFor d) :
    E q d := by
  cases pc with
  | touching src dep rest =>
    obtain rfl : dep = d := hwait
    exact h.2
  | reading prev d' k deps =>
    obtain rfl : d' = d := hwait
    exact h.2
  | _ => exact hwait.elim

/-! ## 4. Steps -/

theorem Registry.traced_iff : R.Traced S E ↔ R.Carries 0 fun q _ deps _ => Traces S E q deps :=
  ⟨fun h => ⟨Nat.zero_le _, fun k e hf => made_iff.mp (h.filed k e hf), fun e _ => h.done e⟩,
    fun h => ⟨fun k e hf => made_iff.mpr (h.filed k e hf), fun e => h.done e (Nat.zero_le e)⟩⟩

theorem Traces.append {deps : List Dep} {d : DynKey} (h : Traces S E q deps)
    (hd : S.sectionType d.kind = .derived → E q d) : Traces S E q (deps ++ [d]) := by
  intro d' hd'
  rcases List.mem_append.mp hd' with hmem | hmem
  · exact h d' hmem
  · exact List.mem_singleton.mp hmem ▸ hd

theorem traced_afterRevalidation {src : Source V} {rev : Revision}
    (h : Traces S E q src.deps) (b : Bool) :
    (afterRevalidation view rev src b).Traced S E R q := by
  cases src with
  | cell deps ch f => cases b <;> trivial
  | shared F prev =>
    cases b with
    | true => simpa [afterRevalidation, Pc.Traced, adoptOps, MicroOp.Traced, Source.deps] using h
    | false => trivial

theorem traced_finalizeOps [DecidableEq V] {rev : Revision} {prev : Previous V} {deps : List Dep}
    {out : PicanteResult V} (h : Traces S E q deps) :
    ∀ op ∈ finalizeOps view rev prev deps out, op.Traced S E q := by
  cases out with
  | ok v =>
    simp only [finalizeOps, List.forall_mem_cons, MicroOp.Traced]
    exact ⟨trivial, h, trivial, h, h, trivial, trivial, trivial,
      fun _ h => absurd h List.not_mem_nil⟩
  | error e => simp [finalizeOps, MicroOp.Traced]

theorem Touched.traced {src : Source V} {rest : List Dep} {r : PicanteResult Revision}
    (ht : Touched w view a src rest r w' a')
    (h : Traces S E a.key src.deps ∧ Traces S E a.key rest) : a'.pc.Traced S E R a'.key := by
  cases ht with
  | unchanged _ => exact h
  | changed _ => exact traced_afterRevalidation h.1 false
  | failed => simp [Activation.moveTo, Pc.Traced, MicroOp.Traced]

section step

variable [DecidableEq V] {task : TaskId} {below : List (Activation V)}

/-- **What a step does to the registry.** -/
theorem Registry.Traced.actStep {m : Move V} (h : w.registry.Traced S E)
    (ha : a.Traced S E w.registry) (hstep : ActStep S w view task below a w' m) :
    w'.registry.Traced S E ∧ w.registry.Extends w'.registry := by
  rw [Registry.traced_iff] at h ⊢
  refine h.actStep (fun v deps ch ops g hpc hg => ?_) hstep
  have hops := ha.pc
  rw [hpc] at hops
  have hop : (MicroOp.setEntry (.done v deps ch)).Traced S E a.key :=
    hops _ (List.mem_cons_self ..)
  rw [(ha.guard g hg).2]
  exact hop

/-- **What is on record after a step.** -/
theorem World.Traced.actStep (h : w.Traced S E) (ha : a.Traced S E w.registry)
    (hstep : ActStep S w view task below a w' (.goto a')) : w'.Traced S E := by
  have hpc := ha.pc
  refine ⟨fun i q r hr => ?_, fun scope q F hF => ?_, (h.registry.actStep ha hstep).1⟩
  · by_cases hk : i = view ∧ q = a.key
    · obtain ⟨rfl, rfl⟩ := hk
      rcases hstep.cellStep with hs | hs | ⟨started, o, hs⟩ | ⟨r₀, -, hs₀, hs⟩ | ⟨st, ops, hops, hs⟩
      · exact h.cells i _ r (hs.symm.trans hr)
      · cases hs.symm.trans hr
      · cases hs.symm.trans hr
      · cases hs.symm.trans hr
        exact h.cells i _ r₀ hs₀
      · obtain rfl := hs.symm.trans hr
        rw [hops] at hpc
        exact hpc _ (List.mem_cons_self ..)
    · have hs : w'.state i q = w.state i q := congrArg ErasedCell.state (hstep.cell_other hk)
      exact h.cells i q r (hs.symm.trans hr)
  · cases hstep with
    | touchInput _ _ ht | touchInterned _ _ _ ht =>
      rw [ht.same.shared] at hF
      exact h.shared scope q F hF
    | sharedMiss _ hlook _ =>
      rcases hlook with rfl | rfl
      · exact h.shared scope q F hF
      · have hF' := (World.shared_evictShared ..).symm.trans hF
        split at hF'
        · cases hF'
        · exact h.shared scope q F hF'
    | putShared hops =>
      rw [hops] at hpc
      rw [World.shared_putShared] at hF
      split at hF
      · next heq =>
        obtain rfl := Option.some.inj hF
        rw [heq.2]
        exact hpc _ (List.mem_cons_self ..)
      · exact h.shared scope q F hF
    | _ => exact h.shared scope q F hF

/-- **What an access goes through after a step.** -/
theorem Activation.Traced.goto (h : w.Traced S E) (ha : a.Traced S E w.registry)
    (hstep : ActStep S w view task below a w' (.goto a')) : a'.Traced S E w'.registry := by
  have hext := (h.registry.actStep ha hstep).2
  have hpcOk := ha.pc
  constructor
  · cases hstep with
    | stale _ hs _ => exact ⟨h.cells _ _ _ hs, h.cells _ _ _ hs⟩
    | sharedStale _ hs _ => exact ⟨h.shared _ _ _ hs, h.shared _ _ _ hs⟩
    | sharedHit _ hs _ =>
      simpa [Activation.moveTo, Pc.Traced, adoptOps, MicroOp.Traced] using h.shared _ _ _ hs
    | accept hpc =>
      rw [hpc] at hpcOk
      exact traced_afterRevalidation hpcOk.1 true
    | unregistered hpc _ =>
      rw [hpc] at hpcOk
      exact traced_afterRevalidation hpcOk.1 false
    | touchInput hpc _ ht | touchInterned hpc _ _ ht =>
      rw [hpc] at hpcOk
      exact ht.traced ⟨hpcOk.1, fun d hd => hpcOk.2 d (List.mem_cons_of_mem _ hd)⟩
    | follow hpc hf => exact h.registry.filed _ _ hf
    | followReset hpc | followListen hpc | followPark hpc | followWake hpc =>
      rw [hpc] at hpcOk
      exact hpcOk
    | followDone hpc hs =>
      rw [hpc] at hpcOk
      have hdone := h.registry.done _ _ _ _ hs
      rw [hpcOk.2] at hdone
      simpa [Activation.moveTo, Pc.Traced, followOps, MicroOp.Traced] using hdone
    | finalize hpc =>
      rw [hpc] at hpcOk
      exact traced_finalizeOps hpcOk
    | readInput hpc hk | readInterned hpc hk _ | readMissing hpc hk _ =>
      rw [hpc] at hpcOk
      exact hpcOk.append fun hd => by rw [hd] at hk; cases hk
    | readCycle hpc _ _ =>
      rw [hpc] at hpcOk
      exact hpcOk
    | updateDeps hpc | setCell hpc | notifyCell hpc | putShared hpc | setEntry hpc _
    | notifyEntry hpc _ | unregister hpc _ | unguarded hpc _ _ =>
      rw [hpc] at hpcOk
      exact fun op hop => hpcOk op (List.mem_cons_of_mem _ hop)
    | hit _ _ _ | poison _ _ | touchMissing _ _ _ | touchCycle _ _ _ | reverify _ _
    | followFailed _ _ =>
      simp [Activation.moveTo, Pc.Traced, followFailedOps, MicroOp.Traced]
    | lead _ _ => exact fun d hd => absurd hd List.not_mem_nil
    | _ => trivial
  · intro g hg
    cases hstep with
    | lead hpc _ =>
      cases hg
      exact ⟨Nat.lt_succ_self _, by simp [World.modifyRegistry, Registry.lead]⟩
    | unregister _ _ => cases hg
    | touchInput _ _ ht | touchInterned _ _ _ ht =>
      rw [ht.key]
      exact (ha.guard g (ht.guard.1 ▸ hg)).mono hext
    | _ => exact (ha.guard g hg).mono hext

/-- A nested access is a call: of the computation, or one that was made before. -/
theorem Activation.Traced.call {child : DynKey} (ha : a.Traced S E w.registry)
    (hstep : ActStep S w view task below a w' (.call a' child))
    (hcall : ∀ prev k deps, a.pc = .computing prev (.read child k) deps →
      S.sectionType child.kind = .derived → E a.key child) : a'.Traced S E w.registry := by
  have hpcOk := ha.pc
  cases hstep with
  | touchCall hpc hk _ =>
    rw [hpc] at hpcOk
    obtain ⟨hsrc, hrest⟩ := hpcOk
    exact ⟨⟨⟨hsrc, fun d hd => hrest d (List.mem_cons_of_mem _ hd)⟩,
      hrest _ (List.mem_cons_self ..) hk⟩, ha.guard⟩
  | readCall hpc hk _ =>
    have hcalls := hcall _ _ _ hpc hk
    rw [hpc] at hpcOk
    exact ⟨⟨hpcOk.append fun _ => hcalls, hcalls⟩, ha.guard⟩

omit [DecidableEq V] in
theorem traced_enter (R : Registry V) (key : DynKey) :
    (Activation.enter key).Traced S E R := ⟨trivial, nofun⟩

omit [DecidableEq V] in
theorem Activation.Traced.resumed {p p' : Activation V} {r : AccessResult V}
    (hp : p.Traced S E w.registry) (hr : Resumed w view p r w' p') :
    p'.Traced S E w'.registry := by
  rw [hr.same.registry]
  have hpcOk := hp.pc
  cases hr with
  | touched hpc ht =>
    rw [hpc] at hpcOk
    refine ⟨ht.traced hpcOk.1, ?_⟩
    rw [ht.guard.1, ht.key]
    exact hp.guard
  | answered hpc =>
    rw [hpc] at hpcOk
    exact ⟨hpcOk.1, hp.guard⟩
  | idle _ => exact hp

end step

/-! ## 5. Runs -/

section runs

variable [DecidableEq V] {c c' : Config V} {t : TaskId}

omit [DecidableEq V] in
theorem World.Traced.same (h : w.Traced S E) (hs : w.Same w') : w'.Traced S E where
  cells i q r hr := h.cells i q r ((hs.state i q).symm.trans hr)
  shared scope q F hF := h.shared scope q F (hs.shared ▸ hF)
  registry := hs.registry ▸ h.registry

theorem Config.Traced.taskStep (h : c.Traced S E) (hstep : TaskStep S c t c')
    (hcalls : ∀ q d, c.Calls S (.step t) q d → E q d) : c'.Traced S E := by
  have hnested := hstep.nested h.nested
  have hold := h.acts t
  have hacts := fun (R : Registry V) (hext : c.world.registry.Extends R) =>
    hstep.acts (P := fun a => a.Traced S E R) fun t a ha => (h.acts t a ha).mono hext
  cases hstep with
  | @goto a a' below w hst ha =>
    rw [hst] at hold
    obtain ⟨hatop, hbelow⟩ := List.forall_mem_cons.mp hold
    have hext := (h.world.registry.actStep hatop ha).2
    refine ⟨h.world.actStep hatop ha, hacts _ hext ?_, hnested⟩
    have hstack : ∀ b ∈ a' :: below, b.Traced S E w.registry :=
      List.forall_mem_cons.mpr ⟨hatop.goto h.world ha, fun b hb => (hbelow b hb).mono hext⟩
    simpa [setTask] using hstack
  | @call a a' below w child hst ha =>
    rw [hst] at hold
    obtain ⟨hatop, hbelow⟩ := List.forall_mem_cons.mp hold
    obtain ⟨rfl, -⟩ := ha.call_pcOk .vacant
    have ha' := hatop.call ha fun prev k deps hpc hk =>
      hcalls _ _ ⟨t, a, below, prev, k, deps, rfl, hst, rfl, hpc, hk⟩
    refine ⟨h.world, hacts _ (.refl _) ?_, hnested⟩
    have hstack : ∀ b ∈ .enter child :: a' :: below, b.Traced S E c.world.registry :=
      List.forall_mem_cons.mpr ⟨traced_enter .., List.forall_mem_cons.mpr ⟨ha', hbelow⟩⟩
    simpa [setTask] using hstack
  | ret hst ha =>
    obtain rfl := ha.ret_world
    exact ⟨h.world, hacts _ (.refl _) (by simp [setTask]), hnested⟩
  | @resume a p p' below w w' r hst ha hp =>
    rw [hst] at hold
    obtain ⟨-, hp₀, hbelow⟩ := by simpa using hold
    obtain rfl := ha.ret_world
    have hreg := hp.same.registry
    refine ⟨h.world.same hp.same, hacts _ (hreg ▸ .refl _) ?_, hnested⟩
    have hstack : ∀ b ∈ p' :: below, b.Traced S E w'.registry :=
      List.forall_mem_cons.mpr ⟨hp₀.resumed hp, fun b hb => hreg ▸ hbelow b hb⟩
    simpa [setTask] using hstack

omit [DecidableEq V] in
/-- What is ready was ready before, in some view. -/
theorem World.Traced.framed (h : w.Traced S E)
    (hcells : ∀ i q r, w'.state i q = .ready r → ∃ j, w.state j q = .ready r)
    (hshared : w'.shared = w.shared) (hregistry : w'.registry = w.registry) :
    w'.Traced S E where
  cells i q r hr := by
    obtain ⟨j, hj⟩ := hcells i q r hr
    exact h.cells j q r hj
  shared scope q F hF := h.shared scope q F (hshared ▸ hF)
  registry := hregistry ▸ h.registry

/-- A change of an input leaves cells and records alone. -/
theorem World.Traced.mutate (h : w.Traced S E) (k : DynKey) (value : Option V) :
    (mutateWorld w view k value).Traced S E := by
  unfold mutateWorld
  split
  · exact h
  · exact h.framed (fun i q r hr => ⟨i, by simpa [World.state] using hr⟩) rfl rfl

theorem World.Traced.stepMutator {m m' : Mutator V} (h : w.Traced S E)
    (hm : stepMutator w m = some (w', m')) : w'.Traced S E ∧ w'.registry = w.registry := by
  unfold Config.stepMutator at hm
  split at hm
  · split at hm <;> cases hm <;> exact ⟨h, rfl⟩
  · cases hm
    exact ⟨h.framed (fun i q r hr => ⟨i, by simpa using hr⟩) rfl rfl, rfl⟩
  · cases hm
    exact ⟨h.framed (fun i q r hr => ⟨i, by simpa [World.state] using hr⟩) rfl rfl, rfl⟩
  · cases hm
    exact ⟨h.framed (fun i q r hr => ⟨i, by simpa using hr⟩) rfl rfl, rfl⟩
  · cases hm

omit [DecidableEq V] in
theorem traced_cancelGuards (stack : List (Activation V)) (h : w.Traced S E) :
    (cancelGuards w stack).Traced S E ∧ w.registry.Extends (cancelGuards w stack).registry := by
  obtain ⟨hregistry, hext, hshared⟩ := (Registry.traced_iff.mp h.registry).cancelled stack
  refine ⟨⟨fun i q r hr => h.cells i q r ?_, hshared ▸ h.shared, ?_⟩, hext⟩
  · rwa [World.state, cell_cancelGuards] at hr
  · exact Registry.traced_iff.mpr hregistry

omit [DecidableEq V] in
theorem Config.Traced.framed (h : c.Traced S E) (hw : w.Traced S E)
    (hregistry : w.registry = c.world.registry) (ms : List (Mutator V)) :
    ({ c with world := w, mutators := ms } : Config V).Traced S E :=
  ⟨hw, fun t a ha => hregistry ▸ h.acts t a ha, h.nested⟩

/-- **Whatever happens, what is on record is a list of calls.** -/
theorem Config.Traced.step {l : Label V} (h : c.Traced S E) (hs : step S c l = some c')
    (hcalls : ∀ q d, c.Calls S l q d → E q d) : c'.Traced S E := by
  cases l with
  | step t => exact h.taskStep (taskStep_of_step hs) hcalls
  | spawn view key want =>
    simp only [Config.step] at hs
    split at hs <;> cases hs
    refine ⟨h.world, fun t a ha => ?_, fun t => ?_⟩
    · by_cases ht : t = c.taskCount
      · subst ht
        obtain rfl : a = .enter key := by simpa using ha
        exact traced_enter ..
      · simp only [Function.update_of_ne ht] at ha
        exact h.acts t a ha
    · by_cases ht : t = c.taskCount
      · subst ht
        simp [Nested]
      · simp only [Function.update_of_ne ht]
        exact h.nested t
  | drop t =>
    have hs' : dropTask c t = some c' := hs
    unfold dropTask at hs'
    split at hs'
    · cases hs'
    · next a below hst =>
      split at hs' <;> cases hs'
      obtain ⟨htraced, hext⟩ := traced_cancelGuards (a :: below) h.world
      refine ⟨htraced, fun t' b hb => ?_, fun t' => ?_⟩
      · by_cases ht : t' = t
        · subst ht
          simp [setTask] at hb
        · have hb' : b ∈ (c.tasks t').stack := by simpa [setTask, Function.update_of_ne ht] using hb
          exact (h.acts t' b hb').mono hext
      · by_cases ht : t' = t
        · subst ht
          simp [setTask, Nested]
        · simpa [setTask, Function.update_of_ne ht] using h.nested t'
  | mutate view key value =>
    simp only [Config.step] at hs
    split at hs <;> cases hs
    refine h.framed (h.world.mutate key value) ?_ c.mutators
    unfold mutateWorld
    split <;> rfl
  | «begin» view key value =>
    simp only [Config.step] at hs
    split at hs <;> cases hs
    exact ⟨h.world, h.acts, h.nested⟩
  | advance m =>
    simp only [Config.step] at hs
    split at hs
    · cases hs
    · split at hs
      · cases hs
      · next hm =>
        cases hs
        obtain ⟨htraced, hregistry⟩ := h.world.stepMutator hm
        exact h.framed htraced hregistry _
  | intern kind value =>
    cases hs
    exact h.framed (w := c.world.intern kind value)
      ⟨h.world.cells, h.world.shared, h.world.registry⟩ rfl c.mutators
  | bump view =>
    simp only [Config.step] at hs
    split at hs <;> cases hs
    exact h.framed (w := c.world.modifyRuntime view (·.bumpRevision))
      (h.world.framed (fun i q r hr => ⟨i, by simpa using hr⟩) rfl rfl) rfl c.mutators
  | snapshot =>
    cases hs
    refine h.framed (w := c.world.snapshot) (h.world.framed (fun i q r hr => ?_) rfl rfl) rfl
      c.mutators
    rw [World.state_snapshot] at hr
    split at hr
    · exact ⟨0, ErasedCell.ready_of_snapshot hr⟩
    · exact ⟨i, hr⟩

omit [DecidableEq V] in
theorem traced_init : (init : Config V).Traced S E where
  world := ⟨nofun, nofun, ⟨nofun, nofun⟩⟩
  acts := nofun
  nested _ := trivial

end runs

/-! ## 6. Cycles -/

/-- The key of the access on top of the stack of `t`. -/
def Config.front (c : Config V) (t : TaskId) : DynKey :=
  ((c.tasks t).stack.head?.map (·.key)).getD (c.tasks t).key

section cycles

variable {c : Config V} {t u v : TaskId} {b : Activation V} {below : List (Activation V)}

theorem front_of_stack (hst : (c.tasks t).stack = a :: below) : c.front t = a.key := by
  simp [Config.front, hst]

/-- An access below another one waits for what it has called. -/
theorem Nested.calls (h : Nested (a :: below)) (hacts : ∀ p ∈ below, p.Traced S E R)
    (hb : b ∈ below) : TransGen E b.key a.key := by
  induction below generalizing a with
  | nil => exact absurd hb List.not_mem_nil
  | cons p below ih =>
    obtain ⟨-, hwait, hbelow⟩ := h
    obtain ⟨hp, hrest⟩ := List.forall_mem_cons.mp hacts
    have hcall : E p.key a.key := hp.pc.calls (hwait p rfl)
    rcases List.mem_cons.mp hb with rfl | hb
    · exact .single hcall
    · exact (ih hbelow hrest hb).tail hcall

theorem Config.Traced.down (h : c.Traced S E) (hst : (c.tasks t).stack = a :: below)
    (hb : b ∈ (c.tasks t).stack) : b = a ∨ TransGen E b.key a.key := by
  have hnested := h.nested t
  have hacts := h.acts t
  rw [hst] at hb hnested hacts
  rcases List.mem_cons.mp hb with rfl | hb
  · exact .inl rfl
  · exact .inr (hnested.calls (fun p hp => hacts p (List.mem_cons_of_mem _ hp)) hb)

/-- An access that leads is below the one with which its task waits. -/
theorem Config.Traced.leader (h : c.Traced S E) (hled : Led c) {d : Nat} {g : InFlightGuard}
    (hb : c.act t d = some b) (hg : b.guard = some g) (hwait : c.WaitsFor t u) :
    TransGen E b.key (c.front t) := by
  have hleads := (hled.guards t d b hb g hg).1
  obtain ⟨a, below, hst, hpc⟩ : ∃ a below, (c.tasks t).stack = a :: below ∧ a.pc.leads = false := by
    cases hwait with
    | cell hst hpc => exact ⟨_, _, hst, by rw [hpc]; rfl⟩
    | entry hst hpc => exact ⟨_, _, hst, by rw [hpc]; rfl⟩
  rw [front_of_stack hst]
  refine (h.down hst (mem_of_act hb)).resolve_left ?_
  rintro rfl
  rw [hpc] at hleads
  cases hleads

/-- An entry is led with the key it is followed with. -/
theorem Config.Traced.leads_key (h : c.Traced S E) {e : EntryId} {seen d : Nat} {g : InFlightGuard}
    (hst : (c.tasks t).stack = a :: below) (hpc : a.pc = .followParked e seen)
    (hb : c.act u d = some b) (hg : b.guard = some g) (he : g.entry = e) : b.key = c.front t := by
  have hfollows := (h.acts t a (by simp [hst])).pc
  rw [hpc] at hfollows
  obtain ⟨-, hmade⟩ := (h.acts u b (mem_of_act hb)).guard g hg
  rw [front_of_stack hst, ← hmade, he]
  exact hfollows.2

/-- The owner has the key that the task waits with. -/
theorem Config.Traced.owner (h : c.Traced S E) (hwait : c.WaitsFor t u) :
    ∃ b ∈ (c.tasks u).stack, b.key = c.front t := by
  cases hwait with
  | cell hst hpc hb hview hkey hworks =>
    exact ⟨_, mem_of_act hb, hkey.trans (front_of_stack hst).symm⟩
  | entry hst hpc hb hg he => exact ⟨_, mem_of_act hb, h.leads_key hst hpc hb hg he⟩

/-- Whom a task waits for is as far down, or further. -/
theorem Config.Traced.weak (h : c.Traced S E) (hwait : c.WaitsFor t u) :
    ReflTransGen E (c.front t) (c.front u) := by
  obtain ⟨b, hb, hkey⟩ := h.owner hwait
  cases hst : (c.tasks u).stack with
  | nil => simp [hst] at hb
  | cons a below =>
    rw [front_of_stack hst, ← hkey]
    rcases h.down hst hb with rfl | hdown
    · exact .refl
    · exact hdown.to_reflTransGen

/-- Whom a follower waits for is further down, if it waits. -/
theorem Config.Traced.followed (h : c.Traced S E) (hled : Led c) {e : EntryId} {seen : Nat}
    (hst : (c.tasks t).stack = a :: below) (hpc : a.pc = .followParked e seen)
    (htu : c.WaitsFor t u) (huv : c.WaitsFor u v) : TransGen E (c.front t) (c.front u) := by
  cases htu with
  | cell hst' hpc' =>
    rw [hst'] at hst
    cases hst
    rw [hpc] at hpc'
    cases hpc'
  | entry hst' hpc' hb hg he =>
    rw [← h.leads_key hst' hpc' hb hg he]
    exact h.leader hled hb hg huv

/-- **Of two that wait in a row, the one that is waited for last is further down.** -/
theorem Config.Traced.strict (h : c.Traced S E) (hled : Led c) {x : TaskId}
    (htu : c.WaitsFor t u) (huv : c.WaitsFor u v) (hvx : c.WaitsFor v x) :
    TransGen E (c.front t) (c.front v) := by
  cases htu with
  | entry hst hpc hb hg he =>
    refine TransGen.trans_left ?_ (h.weak huv)
    rw [← h.leads_key hst hpc hb hg he]
    exact h.leader hled hb hg huv
  | @cell a b below seen d hst hpc hb hview hkey hworks =>
    rw [front_of_stack hst, ← hkey]
    -- the owner is below the access with which its task waits, or follows a leader that is
    cases hst' : (c.tasks u).stack with
    | nil =>
      have hmem := mem_of_act hb
      simp [hst'] at hmem
    | cons a' below' =>
      rcases h.down hst' (mem_of_act hb) with rfl | hdown
      · rw [← front_of_stack hst']
        have hfollows : ∃ e seen, b.pc = .followParked e seen := by
          cases huv with
          | cell hst'' hpc' =>
            rw [hst''] at hst'
            cases hst'
            rw [hpc'] at hworks
            cases hworks
          | entry hst'' hpc' =>
            rw [hst''] at hst'
            cases hst'
            exact ⟨_, _, hpc'⟩
        obtain ⟨e, seen, hpc'⟩ := hfollows
        exact h.followed hled hst' hpc' huv hvx
      · rw [← front_of_stack hst'] at hdown
        exact hdown.trans_left (h.weak huv)

end cycles

/-- **No deadlock without a cycle of calls.**  Take any run in which accesses of any number of tasks
and changes of inputs are interleaved.  If the calls that the computations of the run make, whatever
revision they make them at, form a graph without cycles, no tasks wait for one another in a
cycle. -/
theorem no_deadlock_without_call_cycle [DecidableEq V] {ls : List (Label V)} {c : Config V}
    (hE : ∀ k, ¬ TransGen E k k)
    (hrun : Trans.Steps (step S) (fun m l _ => ∀ q d, m.Calls S l q d → E q d) init ls c)
    (t : TaskId) : ¬ TransGen c.WaitsFor t t := by
  obtain ⟨htraced, hled⟩ : c.Traced S E ∧ Led c :=
    hrun.invariant (I := fun m => m.Traced S E ∧ Led m) ⟨traced_init, led_init⟩
      fun _ _ _ hm hl hok => ⟨hm.1.step hl hok, led_step hm.2 hl⟩
  exact acyclic_of_descent (W := c.WaitsFor) hE (fun _ _ => htraced.weak)
    (fun _ _ _ _ => htraced.strict hled) t

/-- Evaluated over slots holding `content`, `q` reads the derived key `d`. -/
def CallsOver (S : Schema V) (body : DynKey → Query V) (w : World V) (content : Contents V)
    (q d : DynKey) : Prop :=
  S.sectionType d.kind = .derived ∧ ∃ obs k, ReadProg.Follows (body q) obs (.read d k) ∧
    ∀ da ∈ obs, ReadProg.Yields (slotsEnv S body w content) da.1 da.2

/-- A step of accesses to the database, or a change of its inputs. -/
def Label.interleaves : Label V → Bool
  | .step _ => true
  | .spawn view _ _ | .mutate view _ _ => view == 0
  | _ => false

namespace Deadlock

open Cancellation (x)

def left : DynKey := ⟨1, []⟩
def right : DynKey := ⟨1, [1]⟩

/-- Passes the value on that is read. -/
def pass (d : DynKey) : Query Nat :=
  .read d fun
    | .ok v => .done (.ok (v.getD 0))
    | .error e => .done (.error e)

/-- While the slot is 1 `left` reads `right`, and while it is 2 `right` reads `left`. -/
def body (q : DynKey) : Query Nat :=
  .read x fun a =>
    if q = left ∧ a = .ok (some 1) then pass right
    else if q = right ∧ a = .ok (some 2) then pass left
    else .done (.ok 0)

def schema : Schema Nat := { Cancellation.schema with compute := fun _ => body }

/-- Task 0 computes `right` for `left`, and task 1 asks for `right`. -/
def parking : List (Label Nat) :=
  [.mutate 0 x (some 1), .spawn 0 left true] ++ List.replicate 14 (.step 0) ++
    [.spawn 0 right true] ++ List.replicate 3 (.step 1)

/-- Task 0 has read 1 for `left` when the slot becomes 2. -/
def crossing : List (Label Nat) :=
  [.mutate 0 x (some 1), .spawn 0 left true] ++ List.replicate 7 (.step 0) ++
    [.mutate 0 x (some 2), .spawn 0 right true] ++ List.replicate 11 (.step 1) ++
      List.replicate 4 (.step 0)

/-- Task `t` is parked on the cell that task `t'` works for at depth `d`. -/
def parkedOn (c : Config V) (t t' : TaskId) (d : Nat) : Bool :=
  match (c.tasks t).stack, c.act t' d with
  | a :: _, some b =>
    match a.pc with
    | .parked _ => decide ((c.tasks t').view = (c.tasks t).view ∧ b.key = a.key) && b.pc.works
    | _ => false
  | _, _ => false

theorem waitsFor_of_parkedOn {c : Config V} {t t' : TaskId} {d : Nat}
    (h : parkedOn c t t' d = true) : c.WaitsFor t t' := by
  unfold parkedOn at h
  split at h
  · next a below b hst hb =>
    split at h
    · next seen hpc =>
      obtain ⟨hsame, hworks⟩ := Bool.and_eq_true_iff.mp h
      obtain ⟨hview, hkey⟩ := of_decide_eq_true hsame
      exact .cell hst hpc hb hview hkey hworks
    · cases h
  · cases h

/-- If a computation reads a derived key, `left` reads `right`. -/
def leftCalls (c : Config Nat) : Label Nat → Bool
  | .step t =>
    match (c.tasks t).stack with
    | [] => true
    | a :: _ =>
      match a.pc with
      | .computing _ (.read d _) _ =>
        decide (schema.sectionType d.kind = .derived → a.key = left ∧ d = right)
      | _ => true
  | _ => true

theorem calls_of_leftCalls {c : Config Nat} {l : Label Nat} (h : leftCalls c l = true)
    {q d : DynKey} (hcalls : c.Calls schema l q d) : q = left ∧ d = right := by
  obtain ⟨t, a, below, prev, k, deps, rfl, hst, rfl, hpc, hk⟩ := hcalls
  simp only [leftCalls, hst, hpc] at h
  exact of_decide_eq_true h hk

theorem follows_pass {d e : DynKey} {obs : ReadProg.Obs DynKey PicanteError (Option Nat)}
    {k : PicanteResult (Option Nat) → Query Nat}
    (h : ReadProg.Follows (pass e) obs (.read d k)) : d = e := by
  cases obs with
  | nil =>
    cases ReadProg.follows_nil.mp h
    rfl
  | cons da obs =>
    obtain ⟨e', a⟩ := da
    obtain ⟨-, h⟩ := ReadProg.follows_read_cons.mp h
    cases a <;> cases obs <;> cases h

/-- While the slot is 1 `left` calls `right`, while it is 2 it is the other way round, and there are
no other calls. -/
theorem callsOver_cases {w : World Nat} {content : Contents Nat} {q d : DynKey}
    (h : CallsOver schema body w content q d) :
    q = left ∧ d = right ∧ content x = some 1 ∨ q = right ∧ d = left ∧ content x = some 2 := by
  obtain ⟨hd, obs, k, hfollows, hyields⟩ := h
  cases obs with
  | nil =>
    cases ReadProg.follows_nil.mp hfollows
    cases hd
  | cons da obs =>
    obtain ⟨e, a⟩ := da
    obtain ⟨rfl, hrest⟩ := ReadProg.follows_read_cons.mp hfollows
    have hyield : ReadProg.Yields (slotsEnv schema body w content) x a :=
      hyields _ (List.mem_cons_self ..)
    have hslot : a = .ok (content x) := by
      cases hyield with
      | base _ hx => exact congrArg Except.ok (Option.some.inj hx).symm
      | derived hderived _ => cases hderived
    split at hrest
    · next hleft =>
      exact .inl ⟨hleft.1, follows_pass hrest, Except.ok.inj (hslot.symm.trans hleft.2)⟩
    · split at hrest
      · next hright =>
        exact .inr ⟨hright.1, follows_pass hrest, Except.ok.inj (hslot.symm.trans hright.2)⟩
      · cases obs <;> cases hrest

/-- A relation without chains of two has no cycle. -/
theorem acyclic_of_short {K : Type} {E : K → K → Prop} (hE : ∀ a b c, E a b → ¬ E b c) (k : K) :
    ¬ TransGen E k k := by
  intro hk
  obtain ⟨b, hkb, hback⟩ := TransGen.head'_iff.mp hk
  rcases hback.cases_head with rfl | ⟨d, hbd, -⟩
  · exact hE _ _ _ hkb hkb
  · exact hE _ _ _ hkb hbd

end Deadlock

open Deadlock in
open Cancellation (x) in
/-- Task 1 waits for task 0, which waits for nobody. -/
theorem parked_task_waits :
    ∃ c, Trans.run (step schema) init parking = some c ∧ c.WaitsFor 1 0 ∧
      ∀ t, ¬ TransGen c.WaitsFor t t := by
  have hrun : (Trans.run (fun c l => if leftCalls c l then step schema c l else none) init
      parking).any (fun c => parkedOn c 1 0 1) := by
    decide +kernel
  obtain ⟨c, hc, hparked⟩ := (Option.any_eq_true ..).mp hrun
  have hsteps : Trans.Steps (step schema)
      (fun m l _ => ∀ q d, m.Calls schema l q d → q = left ∧ d = right) init parking c :=
    (Trans.Steps.of_checked_run _ hc).mono fun _ _ _ hok _ _ => calls_of_leftCalls hok.2
  refine ⟨c, hsteps.run, waitsFor_of_parkedOn hparked, fun t => ?_⟩
  refine no_deadlock_without_call_cycle (acyclic_of_short ?_) hsteps t
  rintro a b d ⟨-, rfl⟩ ⟨hright, -⟩
  exact absurd hright (by decide)

open Deadlock in
open Cancellation (x) in
/-- **A deadlock without a cycle of calls at any revision**: task 0 has read 1 for `left` and works
for its cell, task 1 reads 2 for `right` and waits for `left`, and then task 0 goes on to
`right`. -/
theorem deadlock_of_two_revisions :
    ¬ ∀ (ls : List (Label Nat)) (c : Config Nat),
      Trans.Steps (step schema) (fun _ l _ => l.interleaves) init ls c →
      (∀ content k, ¬ TransGen (CallsOver schema body c.world content) k k) →
        ∀ t, ¬ TransGen c.WaitsFor t t := by
  intro h
  have hrun : (Trans.run (fun c l => if l.interleaves then step schema c l else none) init
      crossing).any (fun c => parkedOn c 0 1 0 ∧ parkedOn c 1 0 0) := by
    decide +kernel
  obtain ⟨c, hc, hparked⟩ := (Option.any_eq_true ..).mp hrun
  obtain ⟨hzero, hone⟩ := of_decide_eq_true hparked
  have hsteps : Trans.Steps (step schema) (fun _ l _ => l.interleaves) init crossing c :=
    (Trans.Steps.of_checked_run _ hc).mono fun _ _ _ hok => hok.2
  have hcycle : TransGen c.WaitsFor 0 0 :=
    .tail (.single (waitsFor_of_parkedOn hzero)) (waitsFor_of_parkedOn hone)
  refine h crossing c hsteps (fun content => acyclic_of_short fun a b d hab hbd => ?_) 0 hcycle
  rcases callsOver_cases hab with ⟨-, rfl, hx⟩ | ⟨-, rfl, hx⟩
  · rcases callsOver_cases hbd with ⟨hright, -⟩ | ⟨-, -, hx'⟩
    · exact absurd hright (by decide)
    · rw [hx] at hx'
      cases hx'
  · rcases callsOver_cases hbd with ⟨-, -, hx'⟩ | ⟨hleft, -⟩
    · rw [hx] at hx'
      cases hx'
    · exact absurd hleft (by decide)

end Picante

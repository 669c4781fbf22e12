/-
# What is filed is not cancelled

An access that finds an entry filed for its key follows it.  Dropping the guard of an entry cancels
it, and removes what is filed under the key of the guard; that is the key the entry is filed under,
so whoever looks for a leader never finds a cancelled one (`Filing`), and with it a computation has
at any time come from its compute function by the answers to its reads (`Schema.Computes`).  Both
hold of every run, whatever is dropped and whatever fails (`regular_run`).

* `Schema.MayCall` -- what a computation may read, whatever it is answered.
* `Registry.Filing` -- entries are filed under their own keys, and are not cancelled.
* `traced_of_mayCall` -- what is on record for a query is what its computation may read.
-/
import Picante.Waiting

namespace Picante

open Config

variable {V : Type}

/-! ## 1. Programs and entries -/

/-- The program is what the compute function of `q` becomes with some answers to its reads. -/
def Schema.Computes (S : Schema V) (q : DynKey) (p : Query V) : Prop :=
  ∃ n obs, ReadProg.Follows (S.compute n q) obs p

/-- A computation of `q` may read the derived key `d`. -/
def Schema.MayCall (S : Schema V) (q d : DynKey) : Prop :=
  S.sectionType d.kind = .derived ∧ ∃ k, S.Computes q (.read d k)

/-- Entries are filed under their own keys, and are not cancelled. -/
structure Registry.Filing (R : Registry V) : Prop where
  made : ∀ k e, R.filed k = some e → e < R.nextEntry ∧ (R.entries e).key = k
  live : ∀ k e, R.filed k = some e → (R.entries e).state ≠ .cancelled

/-- A computation comes from the compute function of its query, and no result of one is that it was
cancelled. -/
def Pc.Regular (S : Schema V) (q : DynKey) : Pc V → Prop
  | .computing _ p _ => S.Computes q p
  | .reading _ d k _ => S.Computes q (.read d k)
  | .finishing ops => ∀ op ∈ ops, op ≠ .setEntry .cancelled
  | _ => True

structure Activation.Regular (S : Schema V) (R : Registry V) (a : Activation V) : Prop where
  pc : a.pc.Regular S a.key
  guard : ∀ g, a.guard = some g → g.entry < R.nextEntry ∧ (R.entries g.entry).key = g.key

structure Config.Regular (S : Schema V) (c : Config V) : Prop where
  filing : c.world.registry.Filing
  acts : ∀ t, ∀ a ∈ (c.tasks t).stack, a.Regular S c.world.registry

variable {S : Schema V} {R R' : Registry V} {w w' : World V} {view : ViewId}
  {a a' : Activation V} {q : DynKey}

theorem Schema.Computes.answered {d : DynKey} {k : PicanteResult (Option V) → Query V}
    (h : S.Computes q (.read d k)) (answer : PicanteResult (Option V)) :
    S.Computes q (k answer) := by
  obtain ⟨n, obs, hf⟩ := h
  exact ⟨n, _, hf.snoc answer⟩

theorem Activation.Regular.mono (h : a.Regular S R) (hR : R.Extends R') : a.Regular S R' where
  pc := h.pc
  guard g hg := by
    obtain ⟨hmade, hkey⟩ := h.guard g hg
    exact ⟨Nat.lt_of_lt_of_le hmade hR.next, (hR.key _ hmade).trans hkey⟩

theorem regular_afterRevalidation {rev : Revision} {src : Source V} (b : Bool) :
    (afterRevalidation view rev src b).Regular S q := by
  cases src with
  | cell deps ch f => cases b <;> trivial
  | shared F prev => cases b <;> simp [afterRevalidation, Pc.Regular, adoptOps]

theorem regular_finalizeOps [DecidableEq V] {rev : Revision} {prev : Previous V} {deps : List Dep}
    {out : PicanteResult V} : ∀ op ∈ finalizeOps view rev prev deps out,
      op ≠ .setEntry .cancelled := by
  cases out <;> simp [finalizeOps]

theorem Touched.regular {src : Source V} {rest : List Dep} {r : PicanteResult Revision}
    (ht : Touched w view a src rest r w' a') : a'.pc.Regular S q := by
  cases ht with
  | unchanged _ => trivial
  | changed _ => exact regular_afterRevalidation false
  | failed => simp [Activation.moveTo, Pc.Regular]

/-! ## 2. The registry -/

namespace Registry.Filing

theorem setState (h : R.Filing) (e : EntryId) {st : InFlightState V} (hst : st ≠ .cancelled) :
    (R.setState e st).Filing where
  made k e' hf := by
    obtain ⟨hmade, hkey⟩ := h.made k e' hf
    exact ⟨hmade, ((Extends.setState R e st).key e' hmade).trans hkey⟩
  live k e' hf := by
    rcases eq_or_ne e' e with rfl | hne
    · simpa [Registry.setState] using hst
    · simpa [Registry.setState, hne] using h.live k e' hf

theorem notify (h : R.Filing) (e : EntryId) : (R.notify e).Filing where
  made k e' hf := by
    obtain ⟨hmade, hkey⟩ := h.made k e' hf
    exact ⟨hmade, ((Extends.notify R e).key e' hmade).trans hkey⟩
  live k e' hf := by
    rcases eq_or_ne e' e with rfl | hne
    · simpa [Registry.notify] using h.live k e' hf
    · simpa [Registry.notify, hne] using h.live k e' hf

theorem filed_remove {k k' : InFlightKey} {e : EntryId} (hf : (R.remove k).filed k' = some e) :
    k' ≠ k ∧ R.filed k' = some e := by
  have hf' : Function.update R.filed k none k' = some e := hf
  rw [Function.update_apply] at hf'
  split at hf'
  · cases hf'
  · next hne => exact ⟨hne, hf'⟩

theorem remove (h : R.Filing) (k : InFlightKey) : (R.remove k).Filing where
  made k' e hf := h.made k' e (filed_remove hf).2
  live k' e hf := h.live k' e (filed_remove hf).2

/-- **A guard that is dropped cancels an entry, which is filed no longer.** -/
theorem cancel (h : R.Filing) {g : InFlightGuard} (hkey : (R.entries g.entry).key = g.key) :
    (R.cancel g).Filing where
  made k e hf := by
    obtain ⟨hmade, hk⟩ := h.made k e (filed_remove hf).2
    exact ⟨hmade, ((Extends.cancel R g).key e hmade).trans hk⟩
  live k e hf := by
    obtain ⟨hne, hf'⟩ := filed_remove hf
    have hentry : e ≠ g.entry := by
      rintro rfl
      exact hne ((h.made k _ hf').2.symm.trans hkey)
    simpa [Registry.cancel, Registry.remove, Registry.notify, Registry.setState, hentry] using
      h.live k e hf'

theorem lead (h : R.Filing) (k : InFlightKey) (leader : ViewId) : (R.lead k leader).Filing := by
  have hcases : ∀ {k' e}, (R.lead k leader).filed k' = some e →
      k' = k ∧ e = R.nextEntry ∨ R.filed k' = some e := by
    intro k' e hf
    have hf' : Function.update R.filed k (some R.nextEntry) k' = some e := hf
    rw [Function.update_apply] at hf'
    split at hf'
    · next heq => exact .inl ⟨heq, (Option.some.inj hf').symm⟩
    · exact .inr hf'
  refine ⟨fun k' e hf => ?_, fun k' e hf => ?_⟩
  · rcases hcases hf with ⟨rfl, rfl⟩ | hf'
    · exact ⟨Nat.lt_succ_self _, by simp [Registry.lead]⟩
    · obtain ⟨hmade, hkey⟩ := h.made k' e hf'
      exact ⟨Nat.lt_succ_of_lt hmade, ((Extends.lead R k leader).key e hmade).trans hkey⟩
  · rcases hcases hf with ⟨-, rfl⟩ | hf'
    · simp [Registry.lead]
    · have hne : e ≠ R.nextEntry := Nat.ne_of_lt (h.made k' e hf').1
      simpa [Registry.lead, hne] using h.live k' e hf'

end Registry.Filing

/-! ## 3. Steps -/

section step

variable [DecidableEq V] {task : TaskId} {below : List (Activation V)}

theorem Registry.Filing.actStep {m : Move V} (h : w.registry.Filing) (ha : a.Regular S w.registry)
    (hstep : ActStep S w view task below a w' m) :
    w'.registry.Filing ∧ w.registry.Extends w'.registry := by
  cases hstep with
  | lead _ _ => exact ⟨h.lead .., .lead ..⟩
  | @setEntry st ops g hpc _ =>
    have hops := ha.pc
    rw [hpc] at hops
    refine ⟨h.setState g.entry ?_, .setState ..⟩
    rintro rfl
    exact hops _ (List.mem_cons_self ..) rfl
  | notifyEntry _ _ => exact ⟨h.notify _, .notify ..⟩
  | unregister _ _ => exact ⟨h.remove _, .remove ..⟩
  | touchInput _ _ ht | touchInterned _ _ _ ht =>
    rw [ht.same.registry]
    exact ⟨h, .refl _⟩
  | sharedMiss _ hlook _ => rcases hlook with rfl | rfl <;> exact ⟨h, .refl _⟩
  | _ => exact ⟨h, .refl _⟩

theorem Activation.Regular.goto (h : w.registry.Filing) (ha : a.Regular S w.registry)
    (hstep : ActStep S w view task below a w' (.goto a')) : a'.Regular S w'.registry := by
  have hext := (h.actStep ha hstep).2
  have hpcOk := ha.pc
  constructor
  · cases hstep with
    | accept _ => exact regular_afterRevalidation true
    | unregistered _ _ => exact regular_afterRevalidation false
    | touchInput _ _ ht | touchInterned _ _ _ ht => exact ht.regular
    | lead _ _ => exact ⟨_, [], .refl _⟩
    | readInput hpc _ | readInterned hpc _ _ | readMissing hpc _ _ | readCycle hpc _ _ =>
      rw [hpc] at hpcOk
      exact hpcOk.answered _
    | finalize _ => exact regular_finalizeOps
    | updateDeps hpc | setCell hpc | notifyCell hpc | putShared hpc | setEntry hpc _
    | notifyEntry hpc _ | unregister hpc _ | unguarded hpc _ _ =>
      rw [hpc] at hpcOk
      exact fun op hop => hpcOk op (List.mem_cons_of_mem _ hop)
    | hit _ _ _ | poison _ _ | touchMissing _ _ _ | touchCycle _ _ _ | reverify _ _
    | sharedHit _ _ _ | followDone _ _ | followFailed _ _ =>
      simp [Activation.moveTo, Pc.Regular, adoptOps, followOps, followFailedOps]
    | _ => trivial
  · intro g hg
    cases hstep with
    | lead _ _ =>
      cases hg
      exact ⟨Nat.lt_succ_self _, by simp [World.modifyRegistry, Registry.lead]⟩
    | unregister _ _ => cases hg
    | touchInput _ _ ht | touchInterned _ _ _ ht =>
      exact (ha.mono hext).guard g (ht.guard.1 ▸ hg)
    | _ => exact (ha.mono hext).guard g hg

theorem Activation.Regular.call {child : DynKey} (ha : a.Regular S w.registry)
    (hstep : ActStep S w view task below a w' (.call a' child)) : a'.Regular S w.registry := by
  have hpcOk := ha.pc
  cases hstep with
  | touchCall _ _ _ => exact ⟨trivial, ha.guard⟩
  | readCall hpc _ _ =>
    rw [hpc] at hpcOk
    exact ⟨hpcOk, ha.guard⟩

omit [DecidableEq V] in
theorem Activation.Regular.resumed {p p' : Activation V} {r : AccessResult V}
    (hp : p.Regular S w.registry) (hr : Resumed w view p r w' p') : p'.Regular S w'.registry := by
  rw [hr.same.registry]
  have hpcOk := hp.pc
  cases hr with
  | touched _ ht => exact ⟨ht.regular, fun g hg => hp.guard g (ht.guard.1 ▸ hg)⟩
  | answered hpc =>
    rw [hpc] at hpcOk
    exact ⟨hpcOk.answered _, hp.guard⟩
  | idle _ => exact hp

omit [DecidableEq V] in
theorem regular_enter (R : Registry V) (key : DynKey) : (Activation.enter key).Regular S R :=
  ⟨trivial, fun _ hg => by cases hg⟩

end step

/-! ## 4. Runs -/

section runs

variable [DecidableEq V] {c c' : Config V} {t : TaskId} {l : Label V}

theorem Config.Regular.taskStep (h : c.Regular S) (hstep : TaskStep S c t c') : c'.Regular S := by
  have hold := h.acts t
  have hacts := fun (R : Registry V) (hext : c.world.registry.Extends R) =>
    hstep.acts (P := fun a => a.Regular S R) fun t a ha => (h.acts t a ha).mono hext
  cases hstep with
  | @goto a a' below w hst ha =>
    rw [hst] at hold
    obtain ⟨hatop, hbelow⟩ := List.forall_mem_cons.mp hold
    obtain ⟨hfiling, hext⟩ := h.filing.actStep hatop ha
    refine ⟨hfiling, hacts _ hext ?_⟩
    have hstack : ∀ b ∈ a' :: below, b.Regular S w.registry :=
      List.forall_mem_cons.mpr ⟨hatop.goto h.filing ha, fun b hb => (hbelow b hb).mono hext⟩
    simpa [setTask] using hstack
  | @call a a' below w child hst ha =>
    rw [hst] at hold
    obtain ⟨hatop, hbelow⟩ := List.forall_mem_cons.mp hold
    obtain ⟨rfl, -⟩ := ha.call_pcOk .vacant
    refine ⟨h.filing, hacts _ (.refl _) ?_⟩
    have hstack : ∀ b ∈ .enter child :: a' :: below, b.Regular S c.world.registry :=
      List.forall_mem_cons.mpr ⟨regular_enter ..,
        List.forall_mem_cons.mpr ⟨hatop.call ha, hbelow⟩⟩
    simpa [setTask] using hstack
  | ret hst ha =>
    obtain rfl := ha.ret_world
    exact ⟨h.filing, hacts _ (.refl _) (by simp [setTask])⟩
  | @resume a p p' below w w' r hst ha hp =>
    rw [hst] at hold
    obtain ⟨-, hp₀, hbelow⟩ := by simpa using hold
    obtain rfl := ha.ret_world
    have hreg := hp.same.registry
    have hfiling : w'.registry.Filing := hreg ▸ h.filing
    refine ⟨hfiling, hacts _ (hreg ▸ .refl _) ?_⟩
    have hstack : ∀ b ∈ p' :: below, b.Regular S w'.registry :=
      List.forall_mem_cons.mpr ⟨hp₀.resumed hp, fun b hb => hreg ▸ hbelow b hb⟩
    simpa [setTask] using hstack

omit [DecidableEq V] in
theorem regular_cancelGuards (stack : List (Activation V))
    (hstack : ∀ a ∈ stack, a.Regular S w.registry) (h : w.registry.Filing) :
    (cancelGuards w stack).registry.Filing ∧
      w.registry.Extends (cancelGuards w stack).registry := by
  induction stack generalizing w with
  | nil => exact ⟨h, .refl _⟩
  | cons a stack ih =>
    obtain ⟨ha, hrest⟩ := List.forall_mem_cons.mp hstack
    unfold cancelGuards
    cases hg : a.guard with
    | none => exact ih hrest h
    | some g =>
      have hext := Registry.Extends.cancel w.registry g
      obtain ⟨hfiling, hext'⟩ := ih (w := w.modifyRegistry (·.cancel g))
        (fun b hb => (hrest b hb).mono hext) (h.cancel (ha.guard g hg).2)
      exact ⟨hfiling, hext.trans hext'⟩

omit [DecidableEq V] in
theorem Config.Regular.framed (h : c.Regular S) (hregistry : w.registry = c.world.registry)
    (ms : List (Mutator V)) : ({ c with world := w, mutators := ms } : Config V).Regular S :=
  ⟨by simpa [hregistry] using h.filing, fun t a ha => hregistry ▸ h.acts t a ha⟩

/-- **Whatever happens, what is filed is not cancelled**, and what is computed comes from its
compute function. -/
theorem Config.Regular.step (h : c.Regular S) (hs : step S c l = some c') : c'.Regular S := by
  cases l with
  | step t => exact h.taskStep (taskStep_of_step hs)
  | spawn view key want =>
    simp only [Config.step] at hs
    split at hs <;> cases hs
    refine ⟨h.filing, fun t a ha => ?_⟩
    by_cases ht : t = c.taskCount
    · subst ht
      obtain rfl : a = .enter key := by simpa using ha
      exact regular_enter ..
    · simp only [Function.update_of_ne ht] at ha
      exact h.acts t a ha
  | drop t =>
    have hs' : dropTask c t = some c' := hs
    unfold dropTask at hs'
    split at hs'
    · cases hs'
    · next a below hst =>
      split at hs' <;> cases hs'
      obtain ⟨hfiling, hext⟩ := regular_cancelGuards (a :: below) (hst ▸ h.acts t) h.filing
      refine ⟨hfiling, fun t' b hb => ?_⟩
      by_cases ht : t' = t
      · subst ht
        simp [setTask] at hb
      · have hb' : b ∈ (c.tasks t').stack := by simpa [setTask, Function.update_of_ne ht] using hb
        exact (h.acts t' b hb').mono hext
  | _ =>
    obtain ⟨w, ms, rfl, hw⟩ := framed_of_operation rfl hs
    exact h.framed hw ms

omit [DecidableEq V] in
theorem regular_init : (init : Config V).Regular S where
  filing := ⟨nofun, nofun⟩
  acts _ _ := nofun

theorem regular_run {ok : Config V → Label V → Config V → Prop} {ls : List (Label V)}
    (hrun : Trans.Steps (Config.step S) ok init ls c) : c.Regular S :=
  hrun.invariant regular_init fun _ _ _ hm hl _ => hm.step hl

omit [DecidableEq V] in
/-- What a computation reads, it may read. -/
theorem Config.Regular.mayCall (h : c.Regular S) {d : DynKey} (hcalls : c.Calls S l q d) :
    S.MayCall q d := by
  obtain ⟨t, a, below, prev, k, deps, -, hst, rfl, hpc, hk⟩ := hcalls
  have hreg := (h.acts t a (by simp [hst])).pc
  rw [hpc] at hreg
  exact ⟨hk, k, hreg⟩

/-- **What is on record for a query is what its computation may read.** -/
theorem traced_of_mayCall {ok : Config V → Label V → Config V → Prop} {ls : List (Label V)}
    (hrun : Trans.Steps (Config.step S) ok init ls c) : c.Traced S S.MayCall :=
  (hrun.invariant (I := fun m => m.Regular S ∧ m.Traced S S.MayCall) ⟨regular_init, traced_init⟩
    fun _ _ _ hm hl _ => ⟨hm.1.step hl, hm.2.step hl fun _ _ => hm.1.mayCall⟩).2

end runs

end Picante

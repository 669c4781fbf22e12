/-
# Recording in turn

A read is recorded where it belongs if the frame on top of the stack is that of the computation that
makes it, and a cycle check sees no more than the calls the access is nested in if no other call has
a frame for that key on the stack (`Task.InTurn`).  If every step of a run is so, the frame of a
computation holds what it has read, and where the calls of the queries have no cycle, no check
strikes.

* `TaskStep` -- the branches of `Task.step`.
* `Task.InTurn` -- the condition on a step.
* `Task.Ok` -- what holds of the calls of a task and of their frames.
-/
import Picante.Stored
import Picante.Joined.Basic
import Picante.Waiting

namespace Picante

open Config Relation

section activations

variable {V : Type} {S : Schema V} {E : DynKey → DynKey → Prop}
  {Good : DynKey → V → List Dep → Prop} {R : Registry V} {w w' : World V} {view : ViewId}
  {t : TaskId} {below : List (Activation V)} {a a' : Activation V}

/-! ## 1. Activations -/

theorem Pc.framed_of_revalidates {pc : Pc V} (h : pc.revalidates = true) :
    pc.framed = true ∧ pc.computes = false := by
  cases pc <;> first | exact ⟨rfl, rfl⟩ | cases h

theorem Pc.framed_of_computes {pc : Pc V} (h : pc.computes = true) : pc.framed = true := by
  cases pc <;> first | rfl | cases h

theorem computes_afterRevalidation (view : ViewId) (rev : Revision) (src : Source V) (b : Bool) :
    (afterRevalidation view rev src b).computes = false := by
  cases src <;> cases b <;> rfl

theorem Touched.computes {src : Source V} {rest : List Dep}
    {r : PicanteResult Revision} (ht : Touched w view a src rest r w' a') :
    a'.pc.computes = false := by
  cases ht with
  | unchanged _ => rfl
  | changed _ => exact computes_afterRevalidation ..
  | failed => rfl

/-- **Where a call gets that can have a frame**: it drops the frame, or keeps it. -/
theorem ActStep.framed_next [DecidableEq V]
    (hpc : a.pc.computes = false) (hframed : a.pc.framed = true)
    (h : ActStep S w view t below a w' (.goto a')) :
    a'.pc.computes = false ∧ (a.pc.revalidates = true ∨ a'.pc.isTop = true ∨
      ∃ ops, a'.pc = .finishing ops) := by
  cases h with
  | accept hop | unregistered hop _ =>
    exact ⟨computes_afterRevalidation .., .inl (by rw [hop]; rfl)⟩
  | touchInput hop _ ht | touchInterned hop _ _ ht =>
    exact ⟨ht.computes, .inl (by rw [hop]; rfl)⟩
  | touchMissing hop _ _ | touchCycle hop _ _ => exact ⟨rfl, .inl (by rw [hop]; rfl)⟩
  | finalize hop | readInput hop _ | readInterned hop _ _ | readMissing hop _ _
  | readCycle hop _ _ =>
    rw [hop] at hpc
    cases hpc
  | updateDeps _ | setCell _ | notifyCell _ | putShared _ | setEntry _ _ | notifyEntry _ _
  | unregister _ _ | unguarded _ _ _ => exact ⟨rfl, .inr (.inr ⟨_, rfl⟩)⟩
  | restart _ _ => exact ⟨rfl, .inr (.inl rfl)⟩
  | overtaken hop => rcases hop with hop | hop <;> (rw [hop] at hframed; cases hframed)
  | top hop | listen hop | hit hop _ _ | stale hop _ _ | poison hop _ | retry hop _ | park hop _
  | wake hop _ | reverify hop _ | start hop _ | sharedMiss hop _ _ | sharedHit hop _ _
  | sharedStale hop _ _ | follow hop _ | lead hop _ | followReset hop | followListen hop
  | followPark hop | followDone hop _ | followFailed hop _ | followCancelled hop
  | followWake hop =>
    rw [hop] at hframed
    cases hframed

/-- A touch ends, of a nested access or at once. -/
theorem Touched.ok {src : Source V} {dep : Dep}
    {rest : List Dep} {r : PicanteResult Revision} (ht : Touched w view a src rest r w' a')
    (hstores : a.Stores Good R) (htraced : a.Traced S E R)
    (hpc : a.pc = .touching src dep rest ∨ a.pc = .revalidate src (dep :: rest)) :
    a'.Stores Good R ∧ a'.Traced S E R := by
  have hkept : src.Stores Good a.key ∧ Traces S E a.key src.deps ∧ Traces S E a.key rest := by
    have hs := hstores.pc
    have htr := htraced.pc
    rcases hpc with hpc | hpc
    · rw [hpc] at hs htr
      exact ⟨hs, htr.1⟩
    · rw [hpc] at hs htr
      exact ⟨hs, htr.1, fun d hd => htr.2 d (List.mem_cons_of_mem _ hd)⟩
  refine ⟨⟨ht.stores hkept.1, ?_⟩, ⟨ht.traced hkept.2, ?_⟩⟩
  · rw [ht.guard.1, ht.key]
    exact hstores.guard
  · rw [ht.guard.1, ht.key]
    exact htraced.guard

theorem World.Stores.traced (hgood : ∀ q v deps, Good q v deps → Traces S E q deps)
    (h : w.Stores Good) : w.Traced S E where
  cells i q r hr := hgood _ _ _ (h.cells i q r hr)
  shared scope q F hF := hgood _ _ _ (h.shared scope q F hF)
  registry := Registry.traced_iff.mpr ⟨h.registry.next, h.registry.filed,
    fun e he v deps ch hs => hgood _ _ _ (h.registry.done e he v deps ch hs)⟩

end activations

end Picante

namespace Picante.Joined

open Config Relation

variable {V : Type}

/-! ## 2. The branches of a step -/

/-- The branches of `Task.step` for the call `c`: the world and the task after it. -/
inductive TaskStep [DecidableEq V] (S : Schema V) (w : World V) (T : Task V)
    (body : DynKey → Body V) (id : CallId) (c : Call V) (t : TaskId) (path : Path) :
    World V → Task V → Prop
  | moved {w' : World V} {a : Activation V} (hpc : c.act.pc.computes = false)
      (h : ActStep S w T.view t (T.below c) c.act w' (.goto a)) :
      TaskStep S w T body id c t path w' (T.moved body id c a)
  | returned {r : AccessResult V} (h : ActStep S w T.view t (T.below c) c.act w (.ret r)) :
      TaskStep S w T body id c t path ((T.ended id c).resumed body w c.parent r).1
        ((T.ended id c).resumed body w c.parent r).2
  | touchCycle {src : Source V} {dep : Dep} {rest : List Dep} {e : PicanteError} {w' : World V}
      {a : Activation V} (hpc : c.act.pc = .revalidate src (dep :: rest))
      (hchecks : c.checks S path = some dep) (he : T.findCycle dep = some e)
      (ht : Touched (T.struck w c dep) T.view c.act src rest (.error e) w' a) :
      TaskStep S w T body id c t path w' (T.moved body id c a)
  | touchCall {src : Source V} {dep : Dep} {rest : List Dep}
      (hpc : c.act.pc = .revalidate src (dep :: rest))
      (hchecks : c.checks S path = some dep) (hk : S.sectionType dep.kind = .derived) :
      TaskStep S w T body id c t path w
        ((T.put id (some { c with act := c.act.moveTo (.touching src dep rest) })).call dep
          (id, []))
  | completed {prev : Previous V} {prog : Query V} {deps : List Dep} {out : PicanteResult V}
      (hpc : c.act.pc = .computing prev prog deps) (hpath : path = [])
      (hout : c.future = .run (.done out)) :
      TaskStep S w T body id c t path w (T.completed id c prev out)
  | goes {f : Future V} (hpc : c.act.pc.computes = true) :
      TaskStep S w T body id c t path w (T.put id (some { c with future := f }))
  | reads {d : DynKey} {f : Future V} {w' : World V} (hpc : c.act.pc.computes = true)
      (hasks : c.asks path = some d) (hk : S.sectionType d.kind ≠ .derived) (hw : w.Same w') :
      TaskStep S w T body id c t path w'
        ((T.recordDep d).put id (some { c with future := f, reads := c.reads ++ [d] }))
  | readCycle {d : DynKey} {e : PicanteError} {f : Future V} (hchecks : c.checks S path = some d)
      (he : T.findCycle d = some e) :
      TaskStep S w T body id c t path (T.struck w c d)
        (T.put id (some { c with future := f, reads := c.reads ++ [d] }))
  | readCall {d : DynKey} {f : Future V} (hpc : c.act.pc.computes = true)
      (hasks : c.asks path = some d) (hchecks : c.checks S path = some d) :
      TaskStep S w T body id c t path w
        (((T.recordDep d).put id (some { c with future := f, reads := c.reads ++ [d] })).call d
          (id, path))

section cases

variable [DecidableEq V] {S : Schema V} {w w' : World V} {T T' : Task V} {body : DynKey → Body V}
  {id : CallId} {c : Call V} {t : TaskId} {path : Path}

theorem taskStep_of_proceed (hpc : ∀ prev prog deps, c.act.pc ≠ .computing prev prog deps)
    (h : T.proceed body id c S w t = some (w', T')) :
    TaskStep S w T body id c t path w' T' := by
  unfold Task.proceed at h
  split at h
  · next w₁ a hs =>
    cases h
    refine .moved ?_ (actStep_of_step hs)
    cases hop : c.act.pc with
    | computing prev prog deps => exact absurd hop (hpc prev prog deps)
    | reading prev d k deps => simp [stepActivation, hop] at hs
    | _ => rfl
  · next w₁ r hs =>
    obtain rfl := (actStep_of_step hs).ret_world
    have h := Option.some.inj h
    obtain ⟨rfl, rfl⟩ := Prod.mk.inj h
    exact .returned (actStep_of_step hs)
  · cases h

theorem taskStep_of_poll {prev : Previous V} {prog : Query V} {deps : List Dep}
    (hpc : c.act.pc = .computing prev prog deps)
    (h : T.poll id c S w prev path = some (w', T')) :
    TaskStep S w T body id c t path w' T' := by
  have hcomputes : c.act.pc.computes = true := by rw [hpc]; rfl
  unfold Task.poll at h
  split at h
  · next out hat =>
    split at h
    · next hpath =>
      subst hpath
      cases h
      exact .completed hpc rfl (Option.some.inj (Future.at_nil _ ▸ hat))
    · cases h
  · cases h
    exact .goes hcomputes
  · cases h
    exact .goes hcomputes
  · cases h
    exact .goes hcomputes
  · next d k hat =>
    have hasks : c.asks path = some d := by simp only [Call.asks, hpc, hat]
    split at h
    · next hk =>
      cases h
      exact .reads hcomputes hasks (by simp [hk]) (.refl w)
    · next hk =>
      split at h
      · cases h
        exact .reads hcomputes hasks (by simp [hk]) (.refl w)
      · cases h
        exact .reads hcomputes hasks (by simp [hk]) (.logged w _)
    · next hk =>
      have hchecks : c.checks S path = some d := by
        simp only [Call.checks, hpc, hasks, Option.filter, hk, decide_true, if_true]
      split at h
      · next e he =>
        cases h
        exact .readCycle hchecks he
      · cases h
        exact .readCall hcomputes hasks hchecks
  · cases h

/-- **A step takes one of its branches.** -/
theorem taskStep_of_step (h : T.step body id S w t path = some (w', T')) :
    ∃ c, T.calls id = some c ∧ TaskStep S w T body id c t path w' T' := by
  unfold Task.step at h
  split at h
  · cases h
  · next c hc =>
    refine ⟨c, hc, ?_⟩
    split at h
    · next hpc => exact taskStep_of_poll hpc h
    · next src dep rest hpc =>
      split at h
      · next hk =>
        have hchecks : c.checks S path = some dep := by simp only [Call.checks, hpc, if_pos hk]
        split at h
        · next e he =>
          cases h
          exact .touchCycle hpc hchecks he (touched_cases ..)
        · cases h
          exact .touchCall hpc hchecks hk.2
      · refine taskStep_of_proceed (fun prev prog deps hpc' => ?_) h
        rw [hpc] at hpc'
        cases hpc'
    · next hpc _ => exact taskStep_of_proceed hpc h

end cases

/-! ## 3. The condition -/

/-- The first of two calls was started by the second. -/
def Task.Parent (T : Task V) (id id' : CallId) : Prop :=
  ∃ c path, T.calls id = some c ∧ c.parent = some (id', path)

/-- The condition on a step of a call: if a read is recorded, the frame on top is its own; if the
stack is checked for a cycle, the frames on it for the key are those of calls it is nested in. -/
structure Task.InTurn (S : Schema V) (T : Task V) (id : CallId) (c : Call V) (path : Path) :
    Prop where
  records : ∀ d, c.asks path = some d → T.stack.head? = c.frame
  checks : ∀ d, c.checks S path = some d → ∀ f ∈ T.stack, (T.frames f).key = d →
    ∃ id' c', ReflTransGen T.Parent id id' ∧ T.calls id' = some c' ∧ c'.frame = some f

/-! ## 4. The invariant -/

section invariant

variable (S : Schema V) (E : DynKey → DynKey → Prop) (Good : DynKey → V → List Dep → Prop)
  (R : Registry V)

/-- The frame of a call is for its key, and that of a computation holds what it has read. -/
structure Call.Ok (T : Task V) (c : Call V) : Prop where
  stores : c.act.Stores Good R
  traced : c.act.Traced S E R
  frame : ∀ f, c.frame = some f →
    f < T.nextFrame ∧ (T.frames f).key = c.act.key ∧ c.act.pc.framed = true
  computes : c.act.pc.computes = true →
    (∃ f, c.frame = some f ∧ (T.frames f).deps = c.reads) ∧ Traces S E c.act.key c.reads

/-- The calls of a task have frames of their own, and each has been called by its parent. -/
structure Task.Ok (T : Task V) : Prop where
  calls : ∀ id c, T.calls id = some c → id < T.nextCall ∧ c.Ok S E Good R T
  apart : ∀ id id' c c' f, T.calls id = some c → T.calls id' = some c' → c.frame = some f →
    c'.frame = some f → id = id'
  parents : ∀ id c pid path, T.calls id = some c → c.parent = some (pid, path) →
    pid < T.nextCall ∧ ∀ p, T.calls pid = some p → E p.act.key c.act.key

end invariant

section task

variable {S : Schema V} {E : DynKey → DynKey → Prop} {Good Good' : DynKey → V → List Dep → Prop}
  {R R' : Registry V} {w w' : World V} {T T' : Task V} {body : DynKey → Body V} {id : CallId}
  {c c' : Call V} {t : TaskId} {path : Path} {a : Activation V} {d : DynKey}

theorem Call.Ok.mono (h : c.Ok S E Good R T) (himp : ∀ q v deps, Good q v deps → Good' q v deps)
    (hR : R.Extends R') : c.Ok S E Good' R' T :=
  ⟨h.stores.mono himp hR, h.traced.mono hR, h.frame, h.computes⟩

theorem Task.Ok.mono (h : T.Ok S E Good R) (himp : ∀ q v deps, Good q v deps → Good' q v deps)
    (hR : R.Extends R') : T.Ok S E Good' R' :=
  ⟨fun id c hc => ⟨(h.calls id c hc).1, (h.calls id c hc).2.mono himp hR⟩, h.apart, h.parents⟩

/-- The same call among other frames. -/
theorem Call.Ok.framed (h : c.Ok S E Good R T) (hnext : T.nextFrame ≤ T'.nextFrame)
    (hframes : ∀ f, c.frame = some f → T'.frames f = T.frames f) : c.Ok S E Good R T' where
  stores := h.stores
  traced := h.traced
  frame f hf := by
    obtain ⟨hlt, hkey, hpc⟩ := h.frame f hf
    exact ⟨Nat.lt_of_lt_of_le hlt hnext, (congrArg (·.key) (hframes f hf)).trans hkey, hpc⟩
  computes hpc := by
    obtain ⟨⟨f, hf, hdeps⟩, htraces⟩ := h.computes hpc
    exact ⟨⟨f, hf, (congrArg (·.deps) (hframes f hf)).trans hdeps⟩, htraces⟩

/-- **A call changes**, and nobody's frame but its own. -/
theorem Task.Ok.update (h : T.Ok S E Good R) (hc : T.calls id = some c)
    (hcalls : T'.calls = Function.update T.calls id (some c')) (hnext : T'.nextCall = T.nextCall)
    (hframes : T.nextFrame ≤ T'.nextFrame)
    (hother : ∀ f, f < T.nextFrame → c.frame ≠ some f → T'.frames f = T.frames f)
    (hkey : c'.act.key = c.act.key) (hparent : c'.parent = c.parent)
    (hown : ∀ f, c'.frame = some f → c.frame = some f ∨ T.nextFrame ≤ f)
    (hok : c'.Ok S E Good R T') : T'.Ok S E Good R := by
  have hcases : ∀ i b, T'.calls i = some b → i = id ∧ b = c' ∨ i ≠ id ∧ T.calls i = some b := by
    intro i b hb
    rw [hcalls, Function.update_apply] at hb
    split at hb
    · next hi => exact .inl ⟨hi, (Option.some.inj hb).symm⟩
    · next hi => exact .inr ⟨hi, hb⟩
  -- another call has another frame than the changed one
  have hapart : ∀ i b f, i ≠ id → T.calls i = some b → b.frame = some f → c'.frame ≠ some f := by
    intro i b f hi hb hf hf'
    rcases hown f hf' with hold | hnew
    · exact hi (h.apart i id b c f hb hc hf hold)
    · exact absurd (((h.calls i b hb).2.frame f hf).1) (Nat.not_lt.mpr hnew)
  refine ⟨fun i b hb => ?_, fun i j b b' f hb hb' hf hf' => ?_, fun i b pid path hb hp => ?_⟩
  · rw [hnext]
    rcases hcases i b hb with ⟨rfl, rfl⟩ | ⟨hi, hb⟩
    · exact ⟨(h.calls i c hc).1, hok⟩
    · obtain ⟨hlt, hbOk⟩ := h.calls i b hb
      refine ⟨hlt, hbOk.framed hframes fun f hf => hother f (hbOk.frame f hf).1 fun hcf => ?_⟩
      exact hi (h.apart i id b c f hb hc hf hcf)
  · rcases hcases i b hb with ⟨rfl, rfl⟩ | ⟨hi, hb⟩ <;>
      rcases hcases j b' hb' with ⟨rfl, rfl⟩ | ⟨hj, hb'⟩
    · rfl
    · exact absurd hf (hapart j b' f hj hb' hf')
    · exact absurd hf' (hapart i b f hi hb hf)
    · exact h.apart i j b b' f hb hb' hf hf'
  · have hold : ∃ b₀, T.calls i = some b₀ ∧ b₀.parent = some (pid, path) ∧
        b₀.act.key = b.act.key := by
      rcases hcases i b hb with ⟨rfl, rfl⟩ | ⟨hi, hb⟩
      · exact ⟨c, hc, hparent ▸ hp, hkey.symm⟩
      · exact ⟨b, hb, hp, rfl⟩
    obtain ⟨b₀, hb₀, hp₀, hbkey⟩ := hold
    obtain ⟨hpid, hE⟩ := h.parents i b₀ pid path hb₀ hp₀
    refine ⟨hnext ▸ hpid, fun p hpc => ?_⟩
    rw [← hbkey]
    rcases hcases pid p hpc with ⟨rfl, rfl⟩ | ⟨-, hpc⟩
    · exact hkey ▸ hE c hc
    · exact hE p hpc

/-- A call ends. -/
theorem Task.Ok.ended (h : T.Ok S E Good R) : (T.ended id c).Ok S E Good R := by
  have hcalls : ∀ i b, (T.ended id c).calls i = some b → T.calls i = some b := by
    intro i b hb
    have hb' : Function.update (if c.frame.isSome then T.popFrame else T).calls id none i =
      some b := hb
    rw [Function.update_apply] at hb'
    split at hb'
    · cases hb'
    · split at hb' <;> exact hb'
  have hnext : (T.ended id c).nextCall = T.nextCall := by
    unfold Task.ended
    split <;> rfl
  have hnextFrame : (T.ended id c).nextFrame = T.nextFrame := by
    unfold Task.ended
    split <;> rfl
  have hframes : (T.ended id c).frames = T.frames := by
    unfold Task.ended
    split <;> rfl
  refine ⟨fun i b hb => ?_, fun i j b b' f hb hb' => h.apart i j b b' f (hcalls i b hb)
    (hcalls j b' hb'), fun i b pid path hb hp => ?_⟩
  · obtain ⟨hlt, hok⟩ := h.calls i b (hcalls i b hb)
    exact ⟨hnext ▸ hlt, hok.framed (Nat.le_of_eq hnextFrame.symm) fun f _ => congrFun hframes f⟩
  · obtain ⟨hpid, hE⟩ := h.parents i b pid path (hcalls i b hb) hp
    exact ⟨hnext ▸ hpid, fun p hpc => hE p (hcalls pid p hpc)⟩

/-- A nested access starts. -/
theorem Task.Ok.call {pid : CallId} {p : Call V} (h : T.Ok S E Good R)
    (hp : T.calls pid = some p) (hE : E p.act.key d) :
    (T.call d (pid, path)).Ok S E Good R := by
  have hcases : ∀ i b, (T.call d (pid, path)).calls i = some b →
      i = T.nextCall ∧ b = .enter d (some (pid, path)) ∨ i < T.nextCall ∧ T.calls i = some b := by
    intro i b hb
    have hb' : Function.update T.calls T.nextCall (some (Call.enter d (some (pid, path)))) i =
      some b := hb
    rw [Function.update_apply] at hb'
    split at hb'
    · next hi => exact .inl ⟨hi, (Option.some.inj hb').symm⟩
    · exact .inr ⟨(h.calls i b hb').1, hb'⟩
  have hpid := (h.calls pid p hp).1
  refine ⟨fun i b hb => ?_, fun i j b b' f hb hb' hf hf' => ?_, fun i b pid' path' hb hpar => ?_⟩
  · rcases hcases i b hb with ⟨rfl, rfl⟩ | ⟨hi, hb⟩
    · refine ⟨Nat.lt_succ_self _, ⟨⟨trivial, ?_⟩, traced_enter R d, ?_, ?_⟩⟩
      · exact fun g hg => by cases hg
      · exact fun f hf => by cases hf
      · exact fun hpc => by cases hpc
    · exact ⟨Nat.lt_succ_of_lt hi, (h.calls i b hb).2.framed (Nat.le_refl _) fun _ _ => rfl⟩
  · rcases hcases i b hb with ⟨rfl, rfl⟩ | ⟨hi, hb⟩
    · cases hf
    · rcases hcases j b' hb' with ⟨rfl, rfl⟩ | ⟨hj, hb'⟩
      · cases hf'
      · exact h.apart i j b b' f hb hb' hf hf'
  · rcases hcases i b hb with ⟨rfl, rfl⟩ | ⟨hi, hb⟩
    · obtain ⟨rfl, rfl⟩ := Prod.mk.inj (Option.some.inj hpar)
      refine ⟨Nat.lt_succ_of_lt hpid, fun q hq => ?_⟩
      rcases hcases pid q hq with ⟨rfl, -⟩ | ⟨-, hq⟩
      · exact absurd hpid (Nat.lt_irrefl _)
      · obtain rfl := Option.some.inj (hp.symm.trans hq)
        exact hE
    · obtain ⟨hpid', hE'⟩ := h.parents i b pid' path' hb hpar
      refine ⟨Nat.lt_succ_of_lt hpid', fun q hq => ?_⟩
      rcases hcases pid' q hq with ⟨rfl, -⟩ | ⟨-, hq⟩
      · exact absurd hpid' (Nat.lt_irrefl _)
      · exact hE' q hq

/-! ## 5. What a step preserves -/

/-- **A call goes on**, with the frames that its step pushes or pops. -/
theorem Task.Ok.moved (h : T.Ok S E Good R) (hc : T.calls id = some c)
    (hkey : a.key = c.act.key) (hstores : a.Stores Good R) (htraced : a.Traced S E R)
    (hnext : c.act.pc.framed = true → a.pc.computes = false ∧ (c.act.pc.revalidates = true ∨
      a.pc.isTop = true ∨ ∃ ops, a.pc = .finishing ops)) :
    (T.moved body id c a).Ok S E Good R := by
  have hok := (h.calls id c hc).2
  unfold Task.moved
  cases hf : c.frame with
  | none =>
    have hpushed : ∀ c' : Call V, c'.act = a → c'.parent = c.parent →
        c'.frame = some T.nextFrame → c'.reads = [] ∨ a.pc.computes = false →
        a.pc.framed = true → ((T.pushFrame a.key).put id (some c')).Ok S E Good R := by
      intro c' hact hparent hframe hreads hframed
      refine h.update hc rfl rfl (Nat.le_succ _) (fun f hf _ => ?_) (hact ▸ hkey) hparent
        (fun f hf => ?_) ⟨hact ▸ hstores, hact ▸ htraced, fun f hf => ?_, fun hpc => ?_⟩
      · exact Function.update_of_ne (Nat.ne_of_lt hf) ..
      · rw [hframe] at hf
        exact .inr (Nat.le_of_eq (Option.some.inj hf))
      · rw [hframe] at hf
        obtain rfl := Option.some.inj hf
        refine ⟨Nat.lt_succ_self _, ?_, hact ▸ hframed⟩
        simp [Task.put, Task.pushFrame, hact]
      · rcases hreads with hreads | hpc'
        · refine ⟨⟨T.nextFrame, hframe, ?_⟩, ?_⟩
          · simp [Task.put, Task.pushFrame, hreads]
          · rw [hreads]
            exact fun d hd => absurd hd List.not_mem_nil
        · rw [hact, hpc'] at hpc
          cases hpc
    simp only [Option.isNone_none, if_true]
    split
    · next hpc =>
      have hframed := Pc.framed_of_revalidates hpc
      exact hpushed _ rfl rfl rfl (.inr hframed.2) hframed.1
    · split
      · next hpc => exact hpushed _ rfl rfl rfl (.inl rfl) (Pc.framed_of_computes hpc)
      · next hpc =>
        exact h.update hc rfl rfl (Nat.le_refl _) (fun _ _ _ => rfl) hkey rfl
          (fun f hf' => .inl (hf.trans hf'))
          ⟨hstores, htraced, fun f hf' => (by cases hf'), fun hpc' => absurd hpc' hpc⟩
  | some f =>
    obtain ⟨hlt, hfkey, hframed⟩ := hok.frame f hf
    obtain ⟨hcomputes, hnext⟩ := hnext hframed
    have hidle : a.pc.computes = true → False := fun hpc => by
      rw [hcomputes] at hpc
      cases hpc
    simp only [Option.isNone_some, Bool.false_eq_true, if_false]
    split
    · exact h.update hc rfl rfl (Nat.le_refl _) (fun _ _ _ => rfl) hkey rfl
        (fun f hf => by cases hf)
        ⟨hstores, htraced, fun f hf => (by cases hf), fun hpc => (hidle hpc).elim⟩
    · next hstay =>
      refine h.update hc rfl rfl (Nat.le_refl _) (fun _ _ _ => rfl) hkey rfl
        (fun f' hf' => .inl (hf.trans hf'))
        ⟨hstores, htraced, fun f' hf' => ?_, fun hpc => (hidle hpc).elim⟩
      obtain rfl := Option.some.inj hf'
      refine ⟨hlt, hfkey.trans hkey.symm, ?_⟩
      rcases hnext with hpc | hpc | ⟨ops, hpc⟩
      · have hstays : a.pc.revalidates = true := by
          by_contra hleaves
          exact hstay (by simp [hpc, hleaves])
        exact (Pc.framed_of_revalidates hstays).1
      · exact absurd (by simp [hpc]) hstay
      · rw [show ({ c with act := a } : Call V).act.pc = .finishing ops from hpc]
        rfl

/-- A computation goes on with other parts of its future. -/
theorem Task.Ok.goes (h : T.Ok S E Good R) (hc : T.calls id = some c) (f : Future V) :
    (T.put id (some { c with future := f })).Ok S E Good R := by
  obtain ⟨hstores, htraced, hframe, hcomputes⟩ := (h.calls id c hc).2
  exact h.update hc rfl rfl (Nat.le_refl _) (fun _ _ _ => rfl) rfl rfl (fun f hf => .inl hf)
    ⟨hstores, htraced, hframe, hcomputes⟩

/-- **A read is recorded** in the frame of the computation that makes it. -/
theorem Task.Ok.reads (h : T.Ok S E Good R) (hc : T.calls id = some c)
    (hpc : c.act.pc.computes = true) (hhead : T.stack.head? = c.frame)
    (hcall : S.sectionType d.kind = .derived → E c.act.key d) (g : Future V) :
    ((T.recordDep d).put id (some { c with future := g, reads := c.reads ++ [d] })).Ok
      S E Good R := by
  obtain ⟨hstores, htraced, hframe, hcomputes⟩ := (h.calls id c hc).2
  obtain ⟨⟨f, hf, hdeps⟩, htraces⟩ := hcomputes hpc
  obtain ⟨hlt, hkey, hframed⟩ := hframe f hf
  have hrecord : T.recordDep d = T.setDeps f (c.reads ++ [d]) := by
    rw [hf] at hhead
    unfold Task.recordDep
    split
    · next hnil => simp [hnil] at hhead
    · next f' fs hcons =>
      obtain rfl : f' = f := by simpa [hcons] using hhead
      rw [hdeps]
  rw [hrecord]
  refine h.update hc rfl rfl (Nat.le_refl _) (fun f' _ hne => ?_) rfl rfl (fun f' hf' => .inl hf')
    ⟨hstores, htraced, fun f' hf' => ?_, fun _ => ⟨⟨f, hf, ?_⟩, htraces.append hcall⟩⟩
  · exact Function.update_of_ne (fun heq : f' = f => hne (heq ▸ hf)) ..
  · obtain rfl := Option.some.inj (hf.symm.trans hf')
    exact ⟨hlt, by simpa [Task.put, Task.setDeps] using hkey, hframed⟩
  · simp [Task.put, Task.setDeps]

/-- **A computation ends**: what it has read is published as its dependencies. -/
theorem Task.Ok.completed [DecidableEq V] {prev : Previous V} {prog : Query V} {deps : List Dep}
    {out : PicanteResult V} (h : T.Ok S E Good R) (hc : T.calls id = some c)
    (hpc : c.act.pc = .computing prev prog deps)
    (hgood : ∀ v, out = .ok v → Good c.act.key v c.reads) :
    (T.completed id c prev out).Ok S E Good R := by
  obtain ⟨hstores, htraced, hframe, hcomputes⟩ := (h.calls id c hc).2
  obtain ⟨⟨f, hf, hdeps⟩, htraces⟩ := hcomputes (by rw [hpc]; rfl)
  obtain ⟨hlt, hkey, -⟩ := hframe f hf
  have hcompleted : T.completed id c prev out = (T.setDeps f []).put id (some { c with
      act := c.act.moveTo (.finishing (finalizeOps T.view c.act.rev prev c.reads out))
      future := .idle }) := by
    simp only [Task.completed, hf, hdeps]
  rw [hcompleted]
  refine h.update hc rfl rfl (Nat.le_refl _) (fun f' _ hne => ?_) rfl rfl (fun f' hf' => .inl hf')
    ⟨⟨stores_finalizeOps hgood, hstores.guard⟩, ⟨traced_finalizeOps htraces, htraced.guard⟩,
      fun f' hf' => ?_, fun hpc' => (by cases hpc')⟩
  · exact Function.update_of_ne (fun heq : f' = f => hne (heq ▸ hf)) ..
  · obtain rfl := Option.some.inj (hf.symm.trans hf')
    exact ⟨hlt, by simpa [Task.put, Task.setDeps, Activation.moveTo] using hkey, rfl⟩

/-- A nested access has returned. -/
theorem Task.Ok.resumed {parent : Option (CallId × Path)} {r : AccessResult V}
    (h : T.Ok S E Good w.registry) :
    w.Same (T.resumed body w parent r).1 ∧
      (T.resumed body w parent r).2.Ok S E Good w.registry := by
  unfold Task.resumed
  split
  · exact ⟨.refl w, fun i b hb => ⟨(h.calls i b hb).1,
      (h.calls i b hb).2.framed (Nat.le_refl _) fun _ _ => rfl⟩, h.apart, h.parents⟩
  · next pid path =>
    split
    · exact ⟨.refl w, h⟩
    · next p hp =>
      obtain ⟨hstores, htraced, -, -⟩ := (h.calls pid p hp).2
      split
      · next src dep rest hpc =>
        have ht := touched_cases w T.view p.act src rest (r.map (·.2))
        obtain ⟨hstores', htraced'⟩ := ht.ok hstores htraced (.inl hpc)
        refine ⟨ht.same, h.moved hp ht.key hstores' htraced' fun _ => ⟨ht.computes, ?_⟩⟩
        exact .inl (by rw [hpc]; rfl)
      · next prev prog deps hpc =>
        split
        · exact ⟨.refl w, h.goes hp _⟩
        · exact ⟨.refl w, h⟩
      · exact ⟨.refl w, h⟩

/-- A call is nested in calls of keys from which its own is called. -/
theorem Task.Ok.nested {id' : CallId} (h : T.Ok S E Good R) (hc : T.calls id = some c)
    (hc' : T.calls id' = some c') (hnested : ReflTransGen T.Parent id id') :
    ReflTransGen E c'.act.key c.act.key := by
  induction hnested using ReflTransGen.head_induction_on generalizing c with
  | refl =>
    obtain rfl := Option.some.inj (hc.symm.trans hc')
    exact .refl
  | @head i j hij hj ih =>
    obtain ⟨b, path, hb, hpar⟩ := hij
    obtain rfl := Option.some.inj (hc.symm.trans hb)
    obtain ⟨p, hp⟩ : ∃ p, T.calls j = some p := by
      rcases hj.cases_head with rfl | ⟨k, ⟨p, -, hp, -⟩, -⟩
      · exact ⟨c', hc'⟩
      · exact ⟨p, hp⟩
    exact (ih hp).tail ((h.parents i c j path hc hpar).2 p hp)

/-- **No cycle check strikes**, if the frames for the key are those of calls it is nested in. -/
theorem Task.Ok.findCycle (hE : ∀ k, ¬ TransGen E k k) (h : T.Ok S E Good R)
    (hc : T.calls id = some c) (hturn : T.InTurn S id c path) (hchecks : c.checks S path = some d)
    (hcall : E c.act.key d) : T.findCycle d = none := by
  unfold Task.findCycle
  refine if_neg fun hmem => ?_
  obtain ⟨f, hf, hkey⟩ := List.mem_map.mp hmem
  obtain ⟨id', c', hnested, hc', hframe⟩ := hturn.checks d hchecks f hf hkey
  have hown := ((h.calls id' c' hc').2.frame f hframe).2.1
  have hreach := h.nested hc hc' hnested
  rw [← hown, hkey] at hreach
  exact hE d (TransGen.tail' hreach hcall)

/-- Whatever is checked for a cycle is called. -/
theorem Call.Ok.calls (h : c.Ok S E Good R T) (hchecks : c.checks S path = some d)
    (hasks : c.asks path = some d → S.sectionType d.kind = .derived → E c.act.key d) :
    E c.act.key d := by
  unfold Call.checks at hchecks
  split at hchecks
  · next src dep rest hpc =>
    split at hchecks
    · next hk =>
      obtain rfl := Option.some.inj hchecks
      have htraced := h.traced.pc
      rw [hpc] at htraced
      exact htraced.2 _ (List.mem_cons_self ..) hk.2
    · cases hchecks
  · obtain ⟨hasked, hk⟩ := Option.filter_eq_some_iff.mp hchecks
    exact hasks hasked (of_decide_eq_true hk)

/-- **What a step in turn preserves.** -/
theorem Task.Ok.step [DecidableEq V] (hE : ∀ k, ¬ TransGen E k k)
    (hgood : ∀ q v deps, Good q v deps → Traces S E q deps) (h : T.Ok S E Good w.registry)
    (hw : w.Stores Good) (hc : T.calls id = some c) (hturn : T.InTurn S id c path)
    (hcalls : ∀ d, c.asks path = some d → S.sectionType d.kind = .derived → E c.act.key d)
    (hfinal : ∀ prev prog deps v, c.act.pc = .computing prev prog deps → path = [] →
      c.future = .run (.done (.ok v)) → Good c.act.key v c.reads)
    (hstep : TaskStep S w T body id c t path w' T') :
    w'.Stores Good ∧ w.registry.Extends w'.registry ∧ T'.Ok S E Good w'.registry := by
  have hok := (h.calls id c hc).2
  have same : ∀ {w₁ : World V} {T₁ : Task V}, w.Same w₁ → T₁.Ok S E Good w.registry →
      w₁.Stores Good ∧ w.registry.Extends w₁.registry ∧ T₁.Ok S E Good w₁.registry := by
    intro w₁ T₁ hsame hT₁
    rw [hsame.registry]
    exact ⟨hw.same hsame, .refl _, hT₁⟩
  cases hstep with
  | moved hpc hact =>
    obtain ⟨hw', hext⟩ := hw.actStep hok.stores hact
    have hstores := hok.stores.goto hw hact fun prev v deps hop => by
      rw [hop] at hpc
      cases hpc
    have htraced := hok.traced.goto (hw.traced hgood) hact
    refine ⟨hw', hext, (h.mono (fun _ _ _ hv => hv) hext).moved hc hact.key hstores htraced ?_⟩
    exact fun hframed => hact.framed_next hpc hframed
  | returned hact =>
    obtain ⟨hsame, hT'⟩ := h.ended.resumed
    exact same hsame hT'
  | touchCycle hpc hchecks he ht =>
    rw [h.findCycle hE hc hturn hchecks (hok.calls hchecks (hcalls _))] at he
    cases he
  | @touchCall src dep rest hpc hchecks hk =>
    have hcall := hok.calls hchecks (hcalls _)
    have hs := hok.stores.pc
    have htr := hok.traced.pc
    rw [hpc] at hs htr
    have hT₁ : (T.put id (some { c with act := c.act.moveTo (.touching src dep rest) })).Ok S E
        Good w.registry := by
      refine h.update hc rfl rfl (Nat.le_refl _) (fun _ _ _ => rfl) rfl rfl (fun f hf => .inl hf)
        ⟨⟨hs, hok.stores.guard⟩, ⟨⟨⟨htr.1, fun d hd => htr.2 d (List.mem_cons_of_mem _ hd)⟩, hcall⟩,
          hok.traced.guard⟩, fun f hf => ?_, fun hpc' => (by cases hpc')⟩
      obtain ⟨hlt, hkey, -⟩ := hok.frame f hf
      exact ⟨hlt, hkey, rfl⟩
    exact same (.refl w) (hT₁.call (Function.update_self ..) hcall)
  | completed hpc hpath hout =>
    refine same (.refl w) (h.completed hc hpc fun v hv => hfinal _ _ _ v hpc hpath ?_)
    rw [hout, hv]
  | goes hpc => exact same (.refl w) (h.goes hc _)
  | reads hpc hasks hk hsame =>
    exact same hsame (h.reads hc hpc (hturn.records _ hasks) (fun hd => absurd hd hk) _)
  | readCycle hchecks he =>
    rw [h.findCycle hE hc hturn hchecks (hok.calls hchecks (hcalls _))] at he
    cases he
  | readCall hpc hasks hchecks =>
    have hcall := hok.calls hchecks (hcalls _)
    have hread := h.reads hc hpc (hturn.records _ hasks) (fun _ => hcall)
    refine same (.refl w) ((hread _).call (Function.update_self ..) hcall)

end task

end Picante.Joined

/-
# What one step can do

`ActStep` lists the branches of `stepActivation`, each with what was read, the world after it
and the move; `Touched` does so for the end of a touch, which both a step (an input or an
interned dependency) and the return of a nested access (a derived one) run through.  Every
invariant of this development is a case analysis over these two relations; the functions
themselves are unfolded here only (`actStep_of_step`, `touched_cases`).

`World.Same` says that two worlds differ in nothing an access can see: most steps leave the
world so, and only move their activation.
-/
import Picante.System

namespace Picante

variable {V : Type}

/-! ## 1. Worlds that differ in their bookkeeping only -/

/-- The worlds agree on everything but the log, the two call counters and the dependency
graphs. -/
structure World.Same (w w' : World V) : Prop where
  rev : ∀ i, w'.rev i = w.rev i
  scope : ∀ i, w'.scope i = w.scope i
  origin : ∀ i, w'.origin i = w.origin i
  inputs : ∀ i, w'.inputs i = w.inputs i
  cell : ∀ i k, w'.cell i k = w.cell i k
  interned : w'.interned = w.interned
  shared : w'.shared = w.shared
  registry : w'.registry = w.registry
  viewCount : w'.viewCount = w.viewCount

namespace World.Same

variable {w w' w'' : World V}

theorem refl (w : World V) : w.Same w :=
  ⟨fun _ => rfl, fun _ => rfl, fun _ => rfl, fun _ => rfl, fun _ _ => rfl, rfl, rfl, rfl, rfl⟩

theorem trans (h : w.Same w') (h' : w'.Same w'') : w.Same w'' :=
  ⟨fun i => (h'.rev i).trans (h.rev i), fun i => (h'.scope i).trans (h.scope i),
    fun i => (h'.origin i).trans (h.origin i), fun i => (h'.inputs i).trans (h.inputs i),
    fun i k => (h'.cell i k).trans (h.cell i k),
    h'.interned.trans h.interned, h'.shared.trans h.shared, h'.registry.trans h.registry,
    h'.viewCount.trans h.viewCount⟩

theorem logged (w : World V) (e : Event) : w.Same (w.logged e) :=
  ⟨fun _ => rfl, fun _ => rfl, fun _ => rfl, fun _ => rfl, fun _ _ => rfl, rfl, rfl, rfl, rfl⟩

theorem state (h : w.Same w') (i : ViewId) (k : DynKey) : w'.state i k = w.state i k := by
  simp only [World.state, h.cell]

theorem internedAt (h : w.Same w') (S : Schema V) (k : DynKey) :
    w'.internedAt S k = w.internedAt S k := by
  simp only [World.internedAt, h.interned]

end World.Same

/-! ## 2. The end of a touch -/

/-- A touch of the next dependency of `src` was answered by `r`: the revalidation goes on, ends
with a refusal, or fails. -/
inductive Touched (w : World V) (view : ViewId) (a : Activation V) (src : Source V)
    (rest : List Dep) : PicanteResult Revision → World V → Activation V → Prop
  | unchanged {ch : Revision} (h : ch ≤ src.changedAt) :
      Touched w view a src rest (.ok ch) w (a.moveTo (.revalidate src rest))
  | changed {ch : Revision} (h : src.changedAt < ch) :
      Touched w view a src rest (.ok ch)
        (w.logged (.revalidated view a.key src.isShared (src.foreign (w.rev view)) .refused))
        (a.moveTo (afterRevalidation view a.rev src false))
  | failed {e : PicanteError} :
      Touched w view a src rest (.error e)
        (w.logged (.revalidated view a.key src.isShared (src.foreign (w.rev view)) .failed))
        (a.moveTo (.finishing [.raise e]))

theorem touched_cases (w : World V) (view : ViewId) (a : Activation V) (src : Source V)
    (rest : List Dep) (r : PicanteResult Revision) :
    Touched w view a src rest r (touched w view a src rest r).1
      (touched w view a src rest r).2 := by
  cases r with
  | error e => exact .failed
  | ok ch =>
    by_cases h : ch > src.changedAt
    · simp only [touched, if_pos h]
      exact .changed h
    · simp only [touched, if_neg h]
      exact .unchanged (Nat.le_of_not_lt h)

theorem Touched.same {w w' : World V} {view : ViewId} {a a' : Activation V} {src : Source V}
    {rest : List Dep} {r : PicanteResult Revision} (h : Touched w view a src rest r w' a') :
    w.Same w' := by
  cases h with
  | unchanged _ => exact .refl w
  | changed _ => exact .logged w _
  | failed => exact .logged w _

theorem Touched.key {w w' : World V} {view : ViewId} {a a' : Activation V} {src : Source V}
    {rest : List Dep} {r : PicanteResult Revision} (h : Touched w view a src rest r w' a') :
    a'.key = a.key := by
  cases h <;> rfl

theorem Touched.views {w w' : World V} {view : ViewId} {a a' : Activation V} {src : Source V}
    {rest : List Dep} {r : PicanteResult Revision} (h : Touched w view a src rest r w' a') :
    w'.views = w.views := by
  cases h <;> rfl

/-! ## 3. The branches of a step -/

/-- The branches of `stepActivation`: the activation `a` on top of `below`, in task `task` on
`view`, takes the world `w` to the world given, and makes the move given. -/
inductive ActStep [DecidableEq V] (S : Schema V) (w : World V) (view : ViewId) (task : TaskId)
    (below : List (Activation V)) (a : Activation V) : World V → Move V → Prop
  | top (hpc : a.pc = .top) :
      ActStep S w view task below a w (.goto { a with rev := w.rev view, pc := .listen })
  | listen (hpc : a.pc = .listen) :
      ActStep S w view task below a w (.goto (a.moveTo (.observe (w.cell view a.key).epoch)))
  | hit {seen : Nat} {r : ReadyRecord V} (hpc : a.pc = .observe seen)
      (hs : w.state view a.key = .ready r) (hr : r.verifiedAt = a.rev) :
      ActStep S w view task below a w
        (.goto (a.moveTo (.finishing [.checked (.ok (r.value, r.changedAt))])))
  | stale {seen : Nat} {r : ReadyRecord V} (hpc : a.pc = .observe seen)
      (hs : w.state view a.key = .ready r) (hr : r.verifiedAt ≠ a.rev) :
      ActStep S w view task below a w
        (.goto (a.moveTo (.revalidate (.cell r.deps r.changedAt r.foreign) r.deps)))
  | poison {seen : Nat} {e : PicanteError} (hpc : a.pc = .observe seen)
      (hs : w.state view a.key = .poisoned e a.rev) :
      ActStep S w view task below a w (.goto (a.moveTo (.finishing [.checked (.error e)])))
  | retry {seen : Nat} (hpc : a.pc = .observe seen)
      (hs : w.state view a.key = .vacant ∨
        ∃ e ver, w.state view a.key = .poisoned e ver ∧ ver ≠ a.rev) :
      ActStep S w view task below a w (.goto (a.moveTo .attempt))
  | park {seen : Nat} {started : Revision} {o : Owner} (hpc : a.pc = .observe seen)
      (hs : w.state view a.key = .running started o) :
      ActStep S w view task below a w (.goto (a.moveTo (.parked seen)))
  | wake {seen : Nat} (hpc : a.pc = .parked seen) (hs : (w.cell view a.key).epoch ≠ seen) :
      ActStep S w view task below a w (.goto (a.moveTo .top))
  | accept {src : Source V} (hpc : a.pc = .revalidate src []) :
      ActStep S w view task below a
        (w.logged (.revalidated view a.key src.isShared (src.foreign (w.rev view)) .accepted))
        (.goto (a.moveTo (afterRevalidation view a.rev src true)))
  | unregistered {src : Source V} {dep : Dep} {rest : List Dep}
      (hpc : a.pc = .revalidate src (dep :: rest)) (hr : S.registered dep.kind = false) :
      ActStep S w view task below a
        (w.logged (.revalidated view a.key src.isShared (src.foreign (w.rev view)) .refused))
        (.goto (a.moveTo (afterRevalidation view a.rev src false)))
  | touchInput {src : Source V} {dep : Dep} {rest : List Dep} {w' : World V}
      {a' : Activation V} (hpc : a.pc = .revalidate src (dep :: rest))
      (hk : S.sectionType dep.kind = .input)
      (ht : Touched w view a src rest (.ok ((w.inputs view).touch dep)) w' a') :
      ActStep S w view task below a w' (.goto a')
  | touchInterned {src : Source V} {dep : Dep} {rest : List Dep} {w' : World V}
      {a' : Activation V} {v : V} (hpc : a.pc = .revalidate src (dep :: rest))
      (hk : S.sectionType dep.kind = .interned) (hv : w.internedAt S dep = some v)
      (ht : Touched w view a src rest (.ok 0) w' a') :
      ActStep S w view task below a w' (.goto a')
  | touchMissing {src : Source V} {dep : Dep} {rest : List Dep}
      (hpc : a.pc = .revalidate src (dep :: rest))
      (hk : S.sectionType dep.kind = .interned) (hv : w.internedAt S dep = none) :
      ActStep S w view task below a
        ((w.logged (.missing view dep)).logged
          (.revalidated view a.key src.isShared (src.foreign (w.rev view)) .failed))
        (.goto (a.moveTo (.finishing [.raise (World.missingInterned S dep)])))
  | touchCycle {src : Source V} {dep : Dep} {rest : List Dep}
      (hpc : a.pc = .revalidate src (dep :: rest))
      (hk : S.sectionType dep.kind = .derived)
      (hc : dep ∈ (a :: below).map (·.key)) :
      ActStep S w view task below a
        ((w.logged (cycleEvent (w.rev view) view dep (a :: below))).logged
          (.revalidated view a.key src.isShared (src.foreign (w.rev view)) .failed))
        (.goto (a.moveTo (.finishing
          [.raise (.cycle dep ((a :: below).map (·.key)).reverse)])))
  | touchCall {src : Source V} {dep : Dep} {rest : List Dep}
      (hpc : a.pc = .revalidate src (dep :: rest))
      (hk : S.sectionType dep.kind = .derived)
      (hc : dep ∉ (a :: below).map (·.key)) :
      ActStep S w view task below a w (.call (a.moveTo (.touching src dep rest)) dep)
  | reverify {r : ReadyRecord V} (hpc : a.pc = .reverify)
      (hs : w.state view a.key = .ready r) :
      ActStep S w view task below a
        (w.setCell view a.key (.ready { r with verifiedAt := a.rev }))
        (.goto (a.moveTo (.finishing [.checked (.ok (r.value, r.changedAt))])))
  | overtaken (hpc : a.pc = .reverify ∨ a.pc = .attempt) :
      ActStep S w view task below a w (.goto (a.moveTo .top))
  | start {prev : Previous V} (hpc : a.pc = .attempt)
      (hs : (∃ r, w.state view a.key = .ready r ∧ r.verifiedAt ≠ a.rev ∧
          prev = some (r.value, r.changedAt)) ∨
        ((w.state view a.key = .vacant ∨
          ∃ e ver, w.state view a.key = .poisoned e ver ∧ ver ≠ a.rev) ∧ prev = none)) :
      ActStep S w view task below a
        (w.setCell view a.key (.running a.rev ⟨task, below.length⟩))
        (.goto (a.moveTo (.sharedGet prev)))
  | sharedMiss {prev : Previous V} {w' : World V} (hpc : a.pc = .sharedGet prev)
      (hw : w' = { w with lookups := w.lookups + 1 } ∨
        w' = { w.evictShared (w.scope view) a.key with lookups := w.lookups + 1 })
      (hs : w'.shared (w.scope view) a.key = none) :
      ActStep S w view task below a w' (.goto (a.moveTo (.lead prev)))
  | sharedHit {prev : Previous V} {record : SharedCacheRecord V} (hpc : a.pc = .sharedGet prev)
      (hs : w.shared (w.scope view) a.key = some record) (hr : record.verifiedAt = a.rev) :
      ActStep S w view task below a { w with lookups := w.lookups + 1 }
        (.goto (a.moveTo (.finishing (adoptOps view a.rev record))))
  | sharedStale {prev : Previous V} {record : SharedCacheRecord V}
      (hpc : a.pc = .sharedGet prev)
      (hs : w.shared (w.scope view) a.key = some record) (hr : record.verifiedAt ≠ a.rev) :
      ActStep S w view task below a { w with lookups := w.lookups + 1 }
        (.goto (a.moveTo (.revalidate (.shared record prev) record.deps)))
  | follow {prev : Previous V} {e : EntryId} (hpc : a.pc = .lead prev)
      (hf : w.registry.filed ⟨w.scope view, a.rev, a.key⟩ = some e) :
      ActStep S w view task below a w (.goto (a.moveTo (.followReset e)))
  | lead {prev : Previous V} (hpc : a.pc = .lead prev)
      (hf : w.registry.filed ⟨w.scope view, a.rev, a.key⟩ = none) :
      ActStep S w view task below a
        { w.modifyRegistry (·.lead ⟨w.scope view, a.rev, a.key⟩ view) with
          calls := w.calls + 1 }
        (.goto { a with
          guard := some ⟨⟨w.scope view, a.rev, a.key⟩, w.registry.nextEntry⟩
          pc := .computing prev (S.compute w.calls a.key) [] })
  | followReset {e : EntryId} (hpc : a.pc = .followReset e) :
      ActStep S w view task below a (w.setCell view a.key .vacant)
        (.goto (a.moveTo (.followListen e)))
  | followListen {e : EntryId} (hpc : a.pc = .followListen e) :
      ActStep S w view task below a w
        (.goto (a.moveTo (.followRead e (w.registry.entries e).epoch)))
  | followPark {e : EntryId} {seen : Nat} (hpc : a.pc = .followRead e seen) :
      ActStep S w view task below a w (.goto (a.moveTo (.followParked e seen)))
  | followDone {e : EntryId} {seen : Nat} {value : V} {deps : List Dep} {ch : Revision}
      (hpc : a.pc = .followRead e seen)
      (hs : (w.registry.entries e).state = .done value deps ch) :
      ActStep S w view task below a w (.goto (a.moveTo (.finishing
        (followOps view (w.registry.entries e).leader a.rev value deps ch))))
  | followFailed {e : EntryId} {seen : Nat} {err : PicanteError}
      (hpc : a.pc = .followRead e seen) (hs : (w.registry.entries e).state = .failed err) :
      ActStep S w view task below a w
        (.goto (a.moveTo (.finishing (followFailedOps a.rev err))))
  | followCancelled {e : EntryId} {seen : Nat} (hpc : a.pc = .followRead e seen) :
      ActStep S w view task below a w (.goto (a.moveTo .top))
  | followWake {e : EntryId} {seen : Nat} (hpc : a.pc = .followParked e seen) :
      ActStep S w view task below a w (.goto (a.moveTo (.followListen e)))
  | finalize {prev : Previous V} {out : PicanteResult V} {deps : List Dep}
      (hpc : a.pc = .computing prev (.done out) deps) :
      ActStep S w view task below a w
        (.goto (a.moveTo (.finishing (finalizeOps view a.rev prev deps out))))
  | readInput {prev : Previous V} {d : DynKey} {k : PicanteResult (Option V) → Query V}
      {deps : List Dep} (hpc : a.pc = .computing prev (.read d k) deps)
      (hk : S.sectionType d.kind = .input) :
      ActStep S w view task below a w
        (.goto (a.moveTo (.computing prev (k (.ok ((w.inputs view).get d))) (deps ++ [d]))))
  | readInterned {prev : Previous V} {d : DynKey} {k : PicanteResult (Option V) → Query V}
      {deps : List Dep} {v : V} (hpc : a.pc = .computing prev (.read d k) deps)
      (hk : S.sectionType d.kind = .interned) (hv : w.internedAt S d = some v) :
      ActStep S w view task below a w
        (.goto (a.moveTo (.computing prev (k (.ok (some v))) (deps ++ [d]))))
  | readMissing {prev : Previous V} {d : DynKey} {k : PicanteResult (Option V) → Query V}
      {deps : List Dep} (hpc : a.pc = .computing prev (.read d k) deps)
      (hk : S.sectionType d.kind = .interned) (hv : w.internedAt S d = none) :
      ActStep S w view task below a (w.logged (.missing view d))
        (.goto (a.moveTo
          (.computing prev (k (.error (World.missingInterned S d))) (deps ++ [d]))))
  | readCycle {prev : Previous V} {d : DynKey} {k : PicanteResult (Option V) → Query V}
      {deps : List Dep} (hpc : a.pc = .computing prev (.read d k) deps)
      (hk : S.sectionType d.kind = .derived) (hc : d ∈ (a :: below).map (·.key)) :
      ActStep S w view task below a (w.logged (cycleEvent (w.rev view) view d (a :: below)))
        (.goto (a.moveTo (.computing prev
          (k (.error (.cycle d ((a :: below).map (·.key)).reverse))) deps)))
  | readCall {prev : Previous V} {d : DynKey} {k : PicanteResult (Option V) → Query V}
      {deps : List Dep} (hpc : a.pc = .computing prev (.read d k) deps)
      (hk : S.sectionType d.kind = .derived) (hc : d ∉ (a :: below).map (·.key)) :
      ActStep S w view task below a w
        (.call (a.moveTo (.reading prev d k (deps ++ [d]))) d)
  | updateDeps {deps : List Dep} {ops : List (MicroOp V)}
      (hpc : a.pc = .finishing (.updateDeps deps :: ops)) :
      ActStep S w view task below a (w.modifyRuntime view (·.updateQueryDeps a.key deps))
        (.goto (a.moveTo (.finishing ops)))
  | setCell {st : ErasedState V} {ops : List (MicroOp V)}
      (hpc : a.pc = .finishing (.setCell st :: ops)) :
      ActStep S w view task below a (w.setCell view a.key st) (.goto (a.moveTo (.finishing ops)))
  | notifyCell {ops : List (MicroOp V)} (hpc : a.pc = .finishing (.notifyCell :: ops)) :
      ActStep S w view task below a (w.notifyCell view a.key) (.goto (a.moveTo (.finishing ops)))
  | putShared {record : SharedCacheRecord V} {ops : List (MicroOp V)}
      (hpc : a.pc = .finishing (.putShared record :: ops)) :
      ActStep S w view task below a (w.putShared (w.scope view) a.key record)
        (.goto (a.moveTo (.finishing ops)))
  | setEntry {st : InFlightState V} {ops : List (MicroOp V)} {g : InFlightGuard}
      (hpc : a.pc = .finishing (.setEntry st :: ops)) (hg : a.guard = some g) :
      ActStep S w view task below a (w.modifyRegistry (·.setState g.entry st))
        (.goto (a.moveTo (.finishing ops)))
  | notifyEntry {ops : List (MicroOp V)} {g : InFlightGuard}
      (hpc : a.pc = .finishing (.notifyEntry :: ops)) (hg : a.guard = some g) :
      ActStep S w view task below a (w.modifyRegistry (·.notify g.entry))
        (.goto (a.moveTo (.finishing ops)))
  | unregister {ops : List (MicroOp V)} {g : InFlightGuard}
      (hpc : a.pc = .finishing (.unregister :: ops)) (hg : a.guard = some g) :
      ActStep S w view task below a (w.modifyRegistry (·.remove g.key))
        (.goto { a with guard := none, pc := .finishing ops })
  | unguarded {op : MicroOp V} {ops : List (MicroOp V)}
      (hpc : a.pc = .finishing (op :: ops))
      (hop : (∃ st, op = .setEntry st) ∨ op = .notifyEntry ∨ op = .unregister)
      (hg : a.guard = none) :
      ActStep S w view task below a w (.goto (a.moveTo (.finishing ops)))
  | return {r : AccessResult V} {ops : List (MicroOp V)}
      (hpc : a.pc = .finishing (.checked r :: ops)) (hr : w.rev view = a.rev) :
      ActStep S w view task below a w (.ret r)
  | restart {r : AccessResult V} {ops : List (MicroOp V)}
      (hpc : a.pc = .finishing (.checked r :: ops)) (hr : w.rev view ≠ a.rev) :
      ActStep S w view task below a w (.goto (a.moveTo .top))
  | raise {e : PicanteError} {ops : List (MicroOp V)}
      (hpc : a.pc = .finishing (.raise e :: ops)) :
      ActStep S w view task below a w (.ret (.error e))

/-- **A step takes one of its branches.** -/
theorem actStep_of_step [DecidableEq V] {S : Schema V} {w : World V} {view : ViewId}
    {task : TaskId} {below : List (Activation V)} {a : Activation V} {m : World V × Move V}
    (h : stepActivation S w view task below a = some m) :
    ActStep S w view task below a m.1 m.2 := by
  unfold stepActivation at h
  cases hpc : a.pc with
  | top =>
    simp only [hpc, Option.some.injEq] at h
    exact h ▸ .top hpc
  | listen =>
    simp only [hpc, Option.some.injEq] at h
    exact h ▸ .listen hpc
  | observe seen =>
    simp only [hpc] at h
    cases hs : w.state view a.key with
    | ready r =>
      simp only [hs] at h
      split at h
      · next hr => simp only [Option.some.injEq] at h; exact h ▸ .hit hpc hs hr
      · next hr => simp only [Option.some.injEq] at h; exact h ▸ .stale hpc hs hr
    | poisoned e ver =>
      simp only [hs] at h
      split at h
      · next hr =>
        simp only [Option.some.injEq] at h
        exact h ▸ .poison hpc (hr ▸ hs)
      · next hr =>
        simp only [Option.some.injEq] at h
        exact h ▸ .retry hpc (.inr ⟨e, ver, hs, hr⟩)
    | running started o =>
      simp only [hs, Option.some.injEq] at h
      exact h ▸ .park hpc hs
    | vacant =>
      simp only [hs, Option.some.injEq] at h
      exact h ▸ .retry hpc (.inl hs)
  | parked seen =>
    simp only [hpc] at h
    split at h
    · cases h
    · next he => simp only [Option.some.injEq] at h; exact h ▸ .wake hpc he
  | revalidate src rest =>
    cases rest with
    | nil =>
      simp only [hpc, settle, if_true, Option.some.injEq] at h
      exact h ▸ .accept hpc
    | cons dep rest =>
      simp only [hpc] at h
      split at h
      · cases hk : S.sectionType dep.kind with
        | input =>
          simp only [hk, Option.some.injEq] at h
          exact h ▸ .touchInput hpc hk (touched_cases ..)
        | interned =>
          cases hv : w.internedAt S dep with
          | some v =>
            simp only [hk, hv, Option.some.injEq] at h
            exact h ▸ .touchInterned hpc hk hv (touched_cases ..)
          | none =>
            simp only [hk, hv, touched, fail, Option.some.injEq] at h
            exact h ▸ .touchMissing hpc hk hv
        | derived =>
          simp only [hk, findCycle] at h
          by_cases hc : dep ∈ (a :: below).map (·.key)
          · simp only [if_pos hc, touched, fail, Option.some.injEq] at h
            exact h ▸ .touchCycle hpc hk hc
          · simp only [if_neg hc, Option.some.injEq] at h
            exact h ▸ .touchCall hpc hk hc
      · next hr =>
        simp only [settle, Bool.false_eq_true, if_false, Option.some.injEq] at h
        exact h ▸ .unregistered hpc (by simpa using hr)
  | touching src dep rest => simp [hpc] at h
  | reverify =>
    simp only [hpc] at h
    split at h
    · next r hs => simp only [Option.some.injEq] at h; exact h ▸ .reverify hpc hs
    · simp only [Option.some.injEq] at h
      exact h ▸ .overtaken (.inl hpc)
  | attempt =>
    simp only [hpc] at h
    cases hs : w.state view a.key with
    | ready r =>
      simp only [hs] at h
      split at h
      · simp only [Option.some.injEq] at h
        exact h ▸ .overtaken (.inr hpc)
      · next hr =>
        simp only [Option.some.injEq] at h
        exact h ▸ .start hpc (.inl ⟨r, hs, hr, rfl⟩)
    | poisoned e ver =>
      simp only [hs] at h
      split at h
      · simp only [Option.some.injEq] at h
        exact h ▸ .overtaken (.inr hpc)
      · next hr =>
        simp only [Option.some.injEq] at h
        exact h ▸ .start hpc (.inr ⟨.inr ⟨e, ver, hs, hr⟩, rfl⟩)
    | running started o =>
      simp only [hs, Option.some.injEq] at h
      exact h ▸ .overtaken (.inr hpc)
    | vacant =>
      simp only [hs, Option.some.injEq] at h
      exact h ▸ .start hpc (.inr ⟨.inl hs, rfl⟩)
  | sharedGet prev =>
    simp only [hpc] at h
    by_cases hg : S.evicted w.lookups = true
    · have hnone : (({ w with lookups := w.lookups + 1 } : World V).evictShared
          (w.scope view) a.key).shared (w.scope view) a.key = none := by
        simp [World.shared_evictShared]
      simp only [hg, if_true, hnone, Option.some.injEq] at h
      exact h ▸ .sharedMiss hpc (.inr rfl) hnone
    · simp only [hg, Bool.false_eq_true, if_false] at h
      cases hs : w.shared (w.scope view) a.key with
      | none =>
        simp only [hs, Option.some.injEq] at h
        exact h ▸ .sharedMiss hpc (.inl rfl) hs
      | some record =>
        simp only [hs] at h
        split at h
        · next hr => simp only [Option.some.injEq] at h; exact h ▸ .sharedHit hpc hs hr
        · next hr => simp only [Option.some.injEq] at h; exact h ▸ .sharedStale hpc hs hr
  | lead prev =>
    simp only [hpc] at h
    split at h
    · next e hf => simp only [Option.some.injEq] at h; exact h ▸ .follow hpc hf
    · next hf => simp only [Option.some.injEq] at h; exact h ▸ .lead hpc hf
  | followReset e =>
    simp only [hpc, Option.some.injEq] at h
    exact h ▸ .followReset hpc
  | followListen e =>
    simp only [hpc, Option.some.injEq] at h
    exact h ▸ .followListen hpc
  | followRead e seen =>
    simp only [hpc] at h
    split at h
    · simp only [Option.some.injEq] at h; exact h ▸ .followPark hpc
    · next hs => simp only [Option.some.injEq] at h; exact h ▸ .followDone hpc hs
    · next hs => simp only [Option.some.injEq] at h; exact h ▸ .followFailed hpc hs
    · simp only [Option.some.injEq] at h; exact h ▸ .followCancelled hpc
  | followParked e seen =>
    simp only [hpc] at h
    split at h
    · cases h
    · simp only [Option.some.injEq] at h; exact h ▸ .followWake hpc
  | computing prev prog deps =>
    cases prog with
    | done out =>
      simp only [hpc, Option.some.injEq] at h
      exact h ▸ .finalize hpc
    | read d k =>
      simp only [hpc] at h
      cases hk : S.sectionType d.kind with
      | input =>
        simp only [hk, Option.some.injEq] at h
        exact h ▸ .readInput hpc hk
      | interned =>
        cases hv : w.internedAt S d with
        | some v =>
          simp only [hk, hv, Option.some.injEq] at h
          exact h ▸ .readInterned hpc hk hv
        | none =>
          simp only [hk, hv, Option.some.injEq] at h
          exact h ▸ .readMissing hpc hk hv
      | derived =>
        simp only [hk, findCycle] at h
        by_cases hc : d ∈ (a :: below).map (·.key)
        · simp only [if_pos hc, Option.some.injEq] at h
          exact h ▸ .readCycle hpc hk hc
        · simp only [if_neg hc, Option.some.injEq] at h
          exact h ▸ .readCall hpc hk hc
  | reading prev d k deps => simp [hpc] at h
  | finishing ops =>
    cases ops with
    | nil => simp [hpc] at h
    | cons op ops =>
      simp only [hpc, Option.some.injEq] at h
      subst h
      cases op with
      | updateDeps deps => exact .updateDeps hpc
      | setCell st => exact .setCell hpc
      | notifyCell => exact .notifyCell hpc
      | putShared record => exact .putShared hpc
      | setEntry st =>
        cases hg : a.guard with
        | some g => simpa only [stepMicroOp, hg] using ActStep.setEntry hpc hg
        | none => simpa only [stepMicroOp, hg] using ActStep.unguarded hpc (.inl ⟨st, rfl⟩) hg
      | notifyEntry =>
        cases hg : a.guard with
        | some g => simpa only [stepMicroOp, hg] using ActStep.notifyEntry hpc hg
        | none =>
          simpa only [stepMicroOp, hg] using ActStep.unguarded hpc (.inr (.inl rfl)) hg
      | unregister =>
        cases hg : a.guard with
        | some g => simpa only [stepMicroOp, hg] using ActStep.unregister hpc hg
        | none =>
          simpa only [stepMicroOp, hg] using ActStep.unguarded hpc (.inr (.inr rfl)) hg
      | checked r =>
        by_cases hr : w.rev view = a.rev
        · simpa only [stepMicroOp, if_pos hr] using ActStep.return hpc hr
        · simpa only [stepMicroOp, if_neg hr] using ActStep.restart hpc hr
      | raise e => exact .raise hpc

theorem ActStep.ret_world [DecidableEq V] {S : Schema V} {w w' : World V} {view : ViewId}
    {task : TaskId} {below : List (Activation V)} {a : Activation V} {r : AccessResult V}
    (h : ActStep S w view task below a w' (.ret r)) : w' = w := by
  cases h <;> rfl

theorem ActStep.key [DecidableEq V] {S : Schema V} {w w' : World V} {view : ViewId}
    {task : TaskId} {below : List (Activation V)} {a a' : Activation V}
    (h : ActStep S w view task below a w' (.goto a')) : a'.key = a.key := by
  cases h with
  | touchInput _ _ ht | touchInterned _ _ _ ht => exact ht.key
  | _ => rfl

/-- A nested access is one to a derived query. -/
theorem ActStep.call_key [DecidableEq V] {S : Schema V} {w w' : World V} {view : ViewId}
    {task : TaskId} {below : List (Activation V)} {a a' : Activation V} {child : DynKey}
    (h : ActStep S w view task below a w' (.call a' child)) :
    a'.key = a.key ∧ S.sectionType child.kind = .derived := by
  cases h with
  | touchCall _ hk _ | readCall _ hk _ => exact ⟨rfl, hk⟩

/-- **A step changes no other cell than its own.** -/
theorem ActStep.cell_other [DecidableEq V] {S : Schema V} {w w' : World V} {view : ViewId}
    {task : TaskId} {below : List (Activation V)} {a : Activation V} {m : Move V}
    (h : ActStep S w view task below a w' m) {i : ViewId} {k : DynKey}
    (hk : ¬ (i = view ∧ k = a.key)) : w'.cell i k = w.cell i k := by
  cases h with
  | touchInput _ _ ht | touchInterned _ _ _ ht => exact ht.same.cell i k
  | sharedMiss _ hw _ => rcases hw with rfl | rfl <;> rfl
  | reverify _ _ | start _ _ | followReset _ | setCell _ =>
    exact World.cell_setCell_of_ne _ _ _ _ _ _ hk
  | notifyCell _ => exact World.cell_notifyCell_of_ne _ _ _ _ _ hk
  | updateDeps _ => exact World.cell_modifyRuntime ..
  | _ => rfl

/-- **Only an access files a record under its key.** -/
theorem ActStep.shared_other [DecidableEq V] {S : Schema V} {w w' : World V} {view : ViewId}
    {task : TaskId} {below : List (Activation V)} {a : Activation V} {m : Move V}
    (h : ActStep S w view task below a w' m) {s : RuntimeId} {k : DynKey} (hk : k ≠ a.key)
    (hnone : w.shared s k = none) : w'.shared s k = none := by
  cases h with
  | touchInput _ _ ht | touchInterned _ _ _ ht => exact ht.same.shared ▸ hnone
  | sharedMiss _ hlook _ =>
    rcases hlook with rfl | rfl
    · exact hnone
    · show (w.evictShared (w.scope view) a.key).shared s k = none
      rw [World.shared_evictShared, if_neg fun h => hk h.2]
      exact hnone
  | putShared _ =>
    rw [World.shared_putShared, if_neg fun h => hk h.2]
    exact hnone
  | _ => exact hnone

/-! ## 4. The steps of a task -/

/-- What the result `r` does to the activation that was waiting for it. -/
inductive Resumed (w : World V) (view : ViewId) (p : Activation V) (r : AccessResult V) :
    World V → Activation V → Prop
  | touched {src : Source V} {dep : Dep} {rest : List Dep} {w' : World V} {p' : Activation V}
      (hpc : p.pc = .touching src dep rest)
      (ht : Touched w view p src rest (r.map (·.2)) w' p') : Resumed w view p r w' p'
  | answered {prev : Previous V} {d : DynKey} {k : PicanteResult (Option V) → Query V}
      {deps : List Dep} (hpc : p.pc = .reading prev d k deps) :
      Resumed w view p r w (p.moveTo (.computing prev (k (r.map fun vc => some vc.1)) deps))
  | idle (hpc : (∀ src dep rest, p.pc ≠ .touching src dep rest) ∧
      ∀ prev d k deps, p.pc ≠ .reading prev d k deps) : Resumed w view p r w p

theorem resumed_cases (w : World V) (view : ViewId) (p : Activation V) (r : AccessResult V) :
    Resumed w view p r (resume w view p r).1 (resume w view p r).2 := by
  unfold resume
  split
  · next hpc => exact .touched hpc (touched_cases ..)
  · next hpc => exact .answered hpc
  · next h₁ h₂ => exact .idle ⟨h₁, h₂⟩

theorem Resumed.same {w w' : World V} {view : ViewId} {p p' : Activation V} {r : AccessResult V}
    (h : Resumed w view p r w' p') : w.Same w' := by
  cases h with
  | touched _ ht => exact ht.same
  | answered _ => exact .refl w
  | idle _ => exact .refl w

theorem Resumed.key {w w' : World V} {view : ViewId} {p p' : Activation V} {r : AccessResult V}
    (h : Resumed w view p r w' p') : p'.key = p.key := by
  cases h with
  | touched _ ht => exact ht.key
  | answered _ => rfl
  | idle _ => rfl

theorem Resumed.views {w w' : World V} {view : ViewId} {p p' : Activation V} {r : AccessResult V}
    (h : Resumed w view p r w' p') : w'.views = w.views := by
  cases h with
  | touched _ ht => exact ht.views
  | answered _ => rfl
  | idle _ => rfl

/-- A step leaves the other views as they are. -/
theorem ActStep.views_other [DecidableEq V] {S : Schema V} {w w' : World V} {view : ViewId}
    {task : TaskId} {below : List (Activation V)} {a : Activation V} {m : Move V}
    (h : ActStep S w view task below a w' m) {j : ViewId} (hj : j ≠ view) :
    w'.views j = w.views j := by
  cases h with
  | touchInput _ _ ht | touchInterned _ _ _ ht => rw [ht.views]
  | sharedMiss _ hlook _ => rcases hlook with rfl | rfl <;> rfl
  | reverify _ _ | start _ _ | followReset _ | updateDeps _ | setCell _ | notifyCell _ =>
    exact Function.update_of_ne hj ..
  | _ => rfl

namespace Config

/-- The branches of a step of task `t`: its top activation goes on, starts a nested access,
returns the result of the task, or returns a result to the activation below it. -/
inductive TaskStep [DecidableEq V] (S : Schema V) (c : Config V) (t : TaskId) : Config V → Prop
  | goto {a a' : Activation V} {below : List (Activation V)} {w : World V}
      (hst : (c.tasks t).stack = a :: below)
      (h : ActStep S c.world (c.tasks t).view t below a w (.goto a')) :
      TaskStep S c t
        ({ c with world := w }.setTask t { c.tasks t with stack := a' :: below })
  | call {a a' : Activation V} {below : List (Activation V)} {w : World V} {child : DynKey}
      (hst : (c.tasks t).stack = a :: below)
      (h : ActStep S c.world (c.tasks t).view t below a w (.call a' child)) :
      TaskStep S c t
        ({ c with world := w }.setTask t { c.tasks t with stack := .enter child :: a' :: below })
  | ret {a : Activation V} {w : World V} {r : AccessResult V} (hst : (c.tasks t).stack = [a])
      (h : ActStep S c.world (c.tasks t).view t [] a w (.ret r)) :
      TaskStep S c t
        ({ c with world := w }.setTask t { c.tasks t with stack := [], result := some r })
  | resume {a p p' : Activation V} {below : List (Activation V)} {w w' : World V}
      {r : AccessResult V} (hst : (c.tasks t).stack = a :: p :: below)
      (h : ActStep S c.world (c.tasks t).view t (p :: below) a w (.ret r))
      (hp : Resumed w (c.tasks t).view p r w' p') :
      TaskStep S c t
        ({ c with world := w' }.setTask t { c.tasks t with stack := p' :: below })

theorem taskStep_of_step [DecidableEq V] {S : Schema V} {c c' : Config V} {t : TaskId}
    (h : stepTask S c t = some c') : TaskStep S c t c' := by
  unfold stepTask at h
  cases hst : (c.tasks t).stack with
  | nil => simp [hst] at h
  | cons a below =>
    simp only [hst] at h
    cases hm : stepActivation S c.world (c.tasks t).view t below a with
    | none => simp [hm] at h
    | some m =>
      simp only [hm, Option.some.injEq] at h
      have hact := actStep_of_step hm
      obtain ⟨w, mv⟩ := m
      subst h
      cases mv with
      | goto a' => exact .goto hst hact
      | call a' child => exact .call hst hact
      | ret r =>
        cases below with
        | nil => exact .ret hst hact
        | cons p below => exact .resume hst hact (resumed_cases ..)

theorem TaskStep.views_other [DecidableEq V] {S : Schema V} {c c' : Config V} {t : TaskId}
    (h : TaskStep S c t c') {j : ViewId} (hj : j ≠ (c.tasks t).view) :
    c'.world.views j = c.world.views j := by
  cases h with
  | goto _ ha | call _ ha | ret _ ha => exact ha.views_other hj
  | resume _ ha hp => exact (congrFun hp.views j).trans (ha.views_other hj)

end Config

/-! ## 5. Activations by their depth -/

/-- The element of a stack at depth `d`, counted from its bottom. -/
def atDepth (stack : List (Activation V)) (d : Nat) : Option (Activation V) := stack.reverse[d]?

@[simp] theorem atDepth_nil (d : Nat) : atDepth ([] : List (Activation V)) d = none := rfl

@[simp] theorem atDepth_cons (a : Activation V) (below : List (Activation V)) (d : Nat) :
    atDepth (a :: below) d = if d = below.length then some a else atDepth below d := by
  unfold atDepth
  rw [List.reverse_cons, List.getElem?_append]
  by_cases hd : d < below.reverse.length
  · rw [if_pos hd, if_neg (by simp at hd; omega)]
  · rw [if_neg hd]
    simp only [List.length_reverse] at hd ⊢
    by_cases he : d = below.length
    · subst he; simp
    · rw [if_neg he, List.getElem?_eq_none (by simp; omega),
        List.getElem?_eq_none (by simp; omega)]

theorem atDepth_isSome {stack : List (Activation V)} {d : Nat} (h : d < stack.length) :
    ∃ a, atDepth stack d = some a :=
  ⟨_, List.getElem?_eq_getElem (by simpa using h)⟩

/-- What is at some depth of a stack is on it, with the activations below it under it. -/
theorem atDepth_eq_some {stack : List (Activation V)} {d : Nat} {a : Activation V}
    (h : atDepth stack d = some a) : ∃ above below, stack = above ++ a :: below ∧
      below.length = d := by
  induction stack with
  | nil => simp at h
  | cons b stack ih =>
    rw [atDepth_cons] at h
    by_cases hd : d = stack.length
    · rw [if_pos hd] at h
      exact ⟨[], stack, by rw [Option.some.inj h]; rfl, hd.symm⟩
    · rw [if_neg hd] at h
      obtain ⟨above, below, rfl, hlen⟩ := ih h
      exact ⟨b :: above, below, rfl, hlen⟩

namespace Config

/-- The activation of task `t` at depth `d` of its stack, 0 being the access of the task. -/
def act (c : Config V) (t : TaskId) (d : Nat) : Option (Activation V) :=
  atDepth (c.tasks t).stack d

theorem act_setTask (c : Config V) (t t' : TaskId) (task : Task V) (d : Nat) :
    (c.setTask t task).act t' d = if t' = t then atDepth task.stack d else c.act t' d := by
  unfold act setTask
  by_cases h : t' = t
  · subst h; simp
  · simp [h]

/-- The top activation is the one at the depth of the stack below it. -/
theorem act_top {c : Config V} {t : TaskId} {a : Activation V} {below : List (Activation V)}
    (hst : (c.tasks t).stack = a :: below) : c.act t below.length = some a := by
  simp [act, hst]

theorem mem_of_act {c : Config V} {t : TaskId} {d : Nat} {a : Activation V}
    (h : c.act t d = some a) : a ∈ (c.tasks t).stack := by
  obtain ⟨above, below, hst, -⟩ := atDepth_eq_some h
  rw [hst]
  simp

theorem act_eq_below {c : Config V} {t : TaskId} {a : Activation V}
    {below : List (Activation V)} (hst : (c.tasks t).stack = a :: below) {d : Nat}
    (hd : d ≠ below.length) : c.act t d = atDepth below d := by
  simp [act, hst, hd]

/-- Whose activations a task has: those on its stack. -/
theorem act_none_of_stack {c : Config V} {t : TaskId} (h : (c.tasks t).stack = []) (d : Nat) :
    c.act t d = none := by
  simp [act, h]

theorem pending_of_act {c : Config V} {t : TaskId} {d : Nat} {a : Activation V}
    (h : c.act t d = some a) : c.Pending t := by
  intro hst
  rw [act_none_of_stack hst] at h
  cases h

theorem pending_of_stack {c : Config V} {t : TaskId} {a : Activation V}
    {below : List (Activation V)} (hst : (c.tasks t).stack = a :: below) : c.Pending t := by
  unfold Pending
  rw [hst]
  exact nofun

theorem pending_setTask_ne {c : Config V} {t t' : TaskId} (ht : t' ≠ t) (task : Task V) :
    (c.setTask t task).Pending t' ↔ c.Pending t' := by
  unfold Pending setTask
  simp [Function.update_of_ne ht]

section moves

variable {c : Config V} {t t' : TaskId} {a p : Activation V} {below : List (Activation V)}
  {w : World V} {d : Nat}

/-- The activations after the top one has moved. -/
theorem act_goto (hst : (c.tasks t).stack = a :: below) (a' : Activation V) :
    ({ c with world := w }.setTask t { c.tasks t with stack := a' :: below }).act t' d =
      if t' = t ∧ d = below.length then some a' else c.act t' d := by
  rw [act_setTask]
  by_cases ht : t' = t
  · subst ht
    by_cases hd : d = below.length
    · simp [hd]
    · simp [hd, act_eq_below hst hd]
  · simp [ht, act]

/-- The activations after a nested access was started. -/
theorem act_call (hst : (c.tasks t).stack = a :: below) (a' child : Activation V) :
    ({ c with world := w }.setTask t { c.tasks t with stack := child :: a' :: below }).act t' d =
      if t' = t ∧ d = below.length + 1 then some child
      else if t' = t ∧ d = below.length then some a' else c.act t' d := by
  rw [act_setTask]
  by_cases ht : t' = t
  · subst ht
    by_cases hd : d = below.length
    · simp [hd]
    · by_cases hd' : d = below.length + 1
      · simp [hd']
      · simp [hd, hd', act_eq_below hst hd]
  · simp [ht, act]

/-- The activations after the task has returned. -/
theorem act_ret (hst : (c.tasks t).stack = [a]) (r : AccessResult V) :
    ({ c with world := w }.setTask t { c.tasks t with stack := [], result := some r }).act t' d =
      if t' = t ∧ d = 0 then none else c.act t' d := by
  rw [act_setTask]
  by_cases ht : t' = t
  · subst ht
    by_cases hd : d = 0
    · simp [hd]
    · simp [hd, act_eq_below hst hd]
  · simp [ht, act]

/-- The activations after the top one has returned to the one below. -/
theorem act_resume (hst : (c.tasks t).stack = a :: p :: below) (p' : Activation V) :
    ({ c with world := w }.setTask t { c.tasks t with stack := p' :: below }).act t' d =
      if t' = t ∧ d = below.length + 1 then none
      else if t' = t ∧ d = below.length then some p' else c.act t' d := by
  rw [act_setTask]
  by_cases ht : t' = t
  · subst ht
    by_cases hd : d = below.length
    · simp [hd]
    · by_cases hd' : d = below.length + 1
      · subst hd'
        simp only [atDepth_cons, hd, if_false, true_and, if_true]
        cases hb : atDepth below (below.length + 1) with
        | none => rfl
        | some b =>
          obtain ⟨above, below', rfl, hlen⟩ := atDepth_eq_some hb
          simp at hlen
          omega
      · have h := act_eq_below hst (d := d) (by simpa using hd')
        simp [h, hd, hd']
  · simp [ht, act]

end moves

end Config

/-! ## 6. What no step takes back -/

/-- The log of `w'` extends that of `w`, and no view is lost. -/
structure World.Grows (w w' : World V) : Prop where
  log : ∃ events, w'.log = events ++ w.log
  viewCount : w.viewCount ≤ w'.viewCount

namespace World.Grows

variable {w w' w'' : World V}

theorem of_eq (hlog : w'.log = w.log) (hcount : w'.viewCount = w.viewCount) : w.Grows w' :=
  ⟨⟨[], hlog⟩, Nat.le_of_eq hcount.symm⟩

theorem refl (w : World V) : w.Grows w := of_eq rfl rfl

theorem logged (w : World V) (e : Event) : w.Grows (w.logged e) :=
  ⟨⟨[e], rfl⟩, Nat.le_refl _⟩

theorem trans (h : w.Grows w') (h' : w'.Grows w'') : w.Grows w'' := by
  obtain ⟨⟨es, hes⟩, hc⟩ := h
  obtain ⟨⟨es', hes'⟩, hc'⟩ := h'
  exact ⟨⟨es' ++ es, by rw [hes', hes, List.append_assoc]⟩, Nat.le_trans hc hc'⟩

/-- What was logged stays logged. -/
theorem mem (h : w.Grows w') {e : Event} (he : e ∈ w.log) : e ∈ w'.log := by
  obtain ⟨⟨es, hes⟩, -⟩ := h
  rw [hes]
  exact List.mem_append_right _ he

end World.Grows

theorem Touched.grows {w w' : World V} {view : ViewId} {a a' : Activation V} {src : Source V}
    {rest : List Dep} {r : PicanteResult Revision} (h : Touched w view a src rest r w' a') :
    w.Grows w' := by
  cases h with
  | unchanged _ => exact .refl w
  | changed _ => exact .logged w _
  | failed => exact .logged w _

theorem ActStep.grows [DecidableEq V] {S : Schema V} {w w' : World V} {view : ViewId}
    {task : TaskId} {below : List (Activation V)} {a : Activation V} {m : Move V}
    (h : ActStep S w view task below a w' m) :
    w.Grows w' ∧ w'.viewCount = w.viewCount := by
  cases h with
  | touchInput _ _ ht | touchInterned _ _ _ ht => exact ⟨ht.grows, ht.same.viewCount⟩
  | accept _ | unregistered _ _ | readMissing _ _ _ | readCycle _ _ _ => exact ⟨.logged w _, rfl⟩
  | touchMissing _ _ _ | touchCycle _ _ _ =>
    exact ⟨(World.Grows.logged w _).trans (.logged _ _), rfl⟩
  | sharedMiss _ hw _ => rcases hw with rfl | rfl <;> exact ⟨.of_eq rfl rfl, rfl⟩
  | _ => exact ⟨.of_eq rfl rfl, rfl⟩

theorem Resumed.grows {w w' : World V} {view : ViewId} {p p' : Activation V}
    {r : AccessResult V} (h : Resumed w view p r w' p') : w.Grows w' := by
  cases h with
  | touched _ ht => exact ht.grows
  | answered _ => exact .refl w
  | idle _ => exact .refl w

namespace Config

theorem grows_cancelGuards (w : World V) (stack : List (Activation V)) :
    w.Grows (cancelGuards w stack) := by
  induction stack generalizing w with
  | nil => exact .refl w
  | cons a stack ih =>
    unfold cancelGuards
    cases a.guard with
    | none => exact ih w
    | some g =>
      have h : w.Grows (w.modifyRegistry (·.cancel g)) := .of_eq rfl rfl
      exact h.trans (ih _)

theorem grows_mutateWorld [DecidableEq V] (w : World V) (view : ViewId) (k : DynKey)
    (value : Option V) : w.Grows (mutateWorld w view k value) := by
  unfold mutateWorld
  split
  · exact .refl w
  · exact .of_eq rfl rfl

theorem World.interned_mutateWorld [DecidableEq V] (w : World V) (view : ViewId) (k : DynKey)
    (value : Option V) : (mutateWorld w view k value).interned = w.interned := by
  unfold mutateWorld
  split <;> rfl

theorem World.shared_mutateWorld [DecidableEq V] (w : World V) (view : ViewId) (k : DynKey)
    (value : Option V) : (mutateWorld w view k value).shared = w.shared := by
  unfold mutateWorld
  split <;> rfl

theorem grows_stepMutator [DecidableEq V] {w w' : World V} {m m' : Mutator V}
    (h : stepMutator w m = some (w', m')) : w.Grows w' := by
  unfold stepMutator at h
  cases hpc : m.pc with
  | check =>
    simp only [hpc] at h
    split at h <;> (cases h; exact .refl w)
  | bump => simp only [hpc] at h; cases h; exact .of_eq rfl rfl
  | diverge rev => simp only [hpc] at h; cases h; exact .of_eq rfl rfl
  | store rev => simp only [hpc] at h; cases h; exact .of_eq rfl rfl
  | done rev => simp [hpc] at h

/-- **The log only grows.** -/
theorem grows_step [DecidableEq V] {S : Schema V} {c c' : Config V} {l : Label V}
    (h : step S c l = some c') : c.world.Grows c'.world := by
  cases l with
  | spawn view key want =>
    simp only [step] at h
    split at h
    · cases h; exact .refl _
    · cases h
  | step t =>
    cases taskStep_of_step h with
    | goto _ ha => exact ha.grows.1
    | call _ ha => exact ha.grows.1
    | ret _ ha => exact ha.grows.1
    | resume _ ha hp => exact ha.grows.1.trans hp.grows
  | drop t =>
    simp only [step, dropTask] at h
    split at h
    · cases h
    · split at h
      · cases h; exact grows_cancelGuards _ _
      · cases h
  | mutate view key value =>
    simp only [step] at h
    split at h
    · cases h; exact grows_mutateWorld ..
    · cases h
  | begin view key value =>
    simp only [step] at h
    split at h
    · cases h; exact .refl _
    · cases h
  | advance m =>
    simp only [step] at h
    split at h
    · cases h
    · split at h
      · cases h
      · next hm => cases h; exact grows_stepMutator hm
  | intern kind value => cases h; exact .of_eq rfl rfl
  | bump view =>
    simp only [step] at h
    split at h
    · cases h; exact .of_eq rfl rfl
    · cases h
  | snapshot => cases h; exact ⟨⟨[], rfl⟩, Nat.le_succ _⟩

end Config

end Picante

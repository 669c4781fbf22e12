/-
# The access state machine

`access_scoped_erased` and `try_revalidate` (`ingredient/derived.rs`) as a machine that takes
one step for every atomic operation and every section under a lock.  An `Activation` is one
call of it in progress: the key, the revision read at the head of its loop, the in-flight guard
it holds, and where it is (`Pc`).  A task runs a stack of activations, one for each nested
access; below the top, every activation has its own frame on the task's frame stack, pushed
either for its compute or for its revalidation, so the frames are the keys of the activations.

`stepActivation` is one step of the top activation.  It changes the world and ends with a
`Move`: go on, start a nested access, or return.  `resume` is what a result does to the
activation that was waiting for it.

What follows a lock without a suspension in between -- publishing a result and the stale check
after it -- is a list of operations (`MicroOp`), still one step each.
-/
import Picante.World

namespace Picante

variable {V : Type}

/-! ## 1. Activations -/

/-- The result of an access: the error, or the value with its `changed_at`. -/
abbrev AccessResult (V : Type) := PicanteResult (V × Revision)

/-- The previous value of a cell with its `changed_at`, if it was ready. -/
abbrev Previous (V : Type) := Option (V × Revision)

/-- What is being revalidated: the record of the activation's own cell, or a record found in
the shared cache (then the cell is already running, and `prev` is what it held). -/
inductive Source (V : Type) where
  | cell (deps : List Dep) (changedAt : Revision) (foreign : Bool)
  | shared (record : SharedCacheRecord V) (prev : Previous V)

/-- The recorded dependencies. -/
def Source.deps : Source V → List Dep
  | .cell deps _ _ => deps
  | .shared record _ => record.deps

/-- The `changed_at` that each dependency is compared with. -/
def Source.changedAt : Source V → Revision
  | .cell _ changedAt _ => changedAt
  | .shared record _ => record.changedAt

/-- Whether the record is foreign to a view at revision `rev`: a snapshot computed it or stored
it, or it was verified at a later revision than the view is at. -/
def Source.foreign (rev : Revision) : Source V → Bool
  | .cell _ _ foreign => foreign
  | .shared record _ => record.foreign || rev < record.verifiedAt

/-- Whether the record comes from the shared cache. -/
def Source.isShared : Source V → Bool
  | .cell .. => false
  | .shared .. => true

/-- One operation of the straight-line parts: the dependency graph, the cell and its waiters,
the shared cache, the in-flight entry and its waiters, the registry; then either the stale
check before the result, or (an error passed on by `?`) the result without it. -/
inductive MicroOp (V : Type) where
  | updateDeps (deps : List Dep)
  | setCell (st : ErasedState V)
  | notifyCell
  | putShared (record : SharedCacheRecord V)
  | setEntry (st : InFlightState V)
  | notifyEntry
  | unregister
  | checked (r : AccessResult V)
  | raise (e : PicanteError)

/-- Where an activation is in its loop. -/
inductive Pc (V : Type) where
  /-- about to read the current revision -/
  | top
  /-- about to create its `notified` future for the cell -/
  | listen
  /-- about to lock the cell and look at its state -/
  | observe (seen : Nat)
  /-- waiting for a notification of the cell -/
  | parked (seen : Nat)
  /-- in `try_revalidate`, with these dependencies still to touch -/
  | revalidate (src : Source V) (rest : List Dep)
  /-- in `try_revalidate`, waiting for the touch of a derived dependency -/
  | touching (src : Source V) (dep : Dep) (rest : List Dep)
  /-- revalidated its own record: about to lock the cell and mark it verified -/
  | reverify
  /-- about to lock the cell and start a computation -/
  | attempt
  /-- put the cell in state running: about to look into the shared cache -/
  | sharedGet (prev : Previous V)
  /-- about to try to lead -/
  | lead (prev : Previous V)
  /-- a follower, about to reset its cell -/
  | followReset (e : EntryId)
  /-- a follower, about to create its `notified` future for the entry -/
  | followListen (e : EntryId)
  /-- a follower, about to read the state of the entry -/
  | followRead (e : EntryId) (seen : Nat)
  /-- a follower, waiting for a notification of the entry -/
  | followParked (e : EntryId) (seen : Nat)
  /-- a leader: the rest of the compute function, and the dependencies recorded so far -/
  | computing (prev : Previous V) (prog : Query V) (deps : List Dep)
  /-- a leader, waiting for the derived read of `d` its compute function makes -/
  | reading (prev : Previous V) (d : DynKey) (k : PicanteResult (Option V) → Query V)
      (deps : List Dep)
  /-- in a straight-line part -/
  | finishing (ops : List (MicroOp V))

/-- A call of `access_scoped_erased` in progress. -/
structure Activation (V : Type) where
  key : DynKey
  rev : Revision
  guard : Option InFlightGuard
  pc : Pc V

/-- A call that has passed the cycle check and is about to enter its loop. -/
def Activation.enter (key : DynKey) : Activation V := ⟨key, 0, none, .top⟩

/-- How a step of an activation ends. -/
inductive Move (V : Type) where
  | goto (a : Activation V)
  | call (a : Activation V) (child : DynKey)
  | ret (r : AccessResult V)

namespace Activation

/-- The same activation elsewhere. -/
def moveTo (a : Activation V) (pc : Pc V) : Activation V := { a with pc }

/-- Whether the activation waits for a touch on behalf of a record that is foreign to a view at
revision `rev`. -/
def touchesForeign (rev : Revision) (a : Activation V) : Bool :=
  match a.pc with
  | .revalidate src _ => src.foreign rev
  | .touching src _ _ => src.foreign rev
  | _ => false

end Activation

/-- The activations from the top of the stack down to the one for `k`. -/
def segment (k : DynKey) : List (Activation V) → List (Activation V)
  | [] => []
  | a :: as => if a.key = k then [a] else a :: segment k as

/-! ## 2. The straight-line parts -/

/-- Adoption of a shared record, verified at `rev`. -/
def adoptOps (view : ViewId) (rev : Revision) (record : SharedCacheRecord V) : List (MicroOp V) :=
  [ .updateDeps record.deps,
    .setCell (.ready ⟨record.value, rev, record.changedAt, record.deps, record.foreign⟩),
    .notifyCell,
    .putShared { record with verifiedAt := rev, foreign := record.foreign || view ≠ 0 },
    .checked (.ok (record.value, record.changedAt)) ]

/-- A follower takes the result of its leader. -/
def followOps (view leader : ViewId) (rev : Revision) (value : V) (deps : List Dep)
    (changedAt : Revision) : List (MicroOp V) :=
  [ .setCell (.ready ⟨value, rev, changedAt, deps, leader ≠ 0⟩),
    .notifyCell,
    .updateDeps deps,
    .putShared ⟨value, deps, changedAt, rev, leader ≠ 0 || view ≠ 0⟩,
    .checked (.ok (value, changedAt)) ]

/-- A follower takes the error of its leader. -/
def followFailedOps (rev : Revision) (e : PicanteError) : List (MicroOp V) :=
  [.setCell (.poisoned e rev), .notifyCell, .checked (.error e)]

/-- `changed_at` of a computed value: that of an equal previous value, else this revision. -/
def changedAtOf [DecidableEq V] (prev : Previous V) (rev : Revision) (value : V) : Revision :=
  match prev with
  | some (prevValue, prevChangedAt) => if prevValue = value then prevChangedAt else rev
  | none => rev

/-- A leader publishes what its compute function ended with (a panic is an error). -/
def finalizeOps [DecidableEq V] (view : ViewId) (rev : Revision) (prev : Previous V)
    (deps : List Dep) : PicanteResult V → List (MicroOp V)
  | .ok value =>
    let changedAt := changedAtOf prev rev value
    [ .updateDeps deps,
      .setCell (.ready ⟨value, rev, changedAt, deps, view ≠ 0⟩),
      .notifyCell,
      .putShared ⟨value, deps, changedAt, rev, view ≠ 0⟩,
      .setEntry (.done value deps changedAt),
      .notifyEntry,
      .unregister,
      .checked (.ok (value, changedAt)) ]
  | .error e =>
    [ .setCell (.poisoned e rev),
      .notifyCell,
      .setEntry (.failed e),
      .notifyEntry,
      .unregister,
      .checked (.error e) ]

/-- One operation of a straight-line part. -/
def stepMicroOp (w : World V) (view : ViewId) (a : Activation V) (ops : List (MicroOp V)) :
    MicroOp V → World V × Move V
  | .updateDeps deps =>
    (w.modifyRuntime view (·.updateQueryDeps a.key deps), .goto (a.moveTo (.finishing ops)))
  | .setCell st => (w.setCell view a.key st, .goto (a.moveTo (.finishing ops)))
  | .notifyCell => (w.notifyCell view a.key, .goto (a.moveTo (.finishing ops)))
  | .putShared record =>
    (w.putShared (w.scope view) a.key record, .goto (a.moveTo (.finishing ops)))
  | .setEntry st =>
    match a.guard with
    | some g => (w.modifyRegistry (·.setState g.entry st), .goto (a.moveTo (.finishing ops)))
    | none => (w, .goto (a.moveTo (.finishing ops)))
  | .notifyEntry =>
    match a.guard with
    | some g => (w.modifyRegistry (·.notify g.entry), .goto (a.moveTo (.finishing ops)))
    | none => (w, .goto (a.moveTo (.finishing ops)))
  | .unregister =>
    match a.guard with
    | some g =>
      (w.modifyRegistry (·.remove g.key), .goto { a with guard := none, pc := .finishing ops })
    | none => (w, .goto (a.moveTo (.finishing ops)))
  | .checked r =>
    -- the stale check: a result of another revision is dropped, and the loop starts again
    if w.rev view = a.rev then (w, .ret r) else (w, .goto (a.moveTo .top))
  | .raise e => (w, .ret (.error e))

/-! ## 3. Revalidation -/

/-- Where a revalidation that did not fail leads: an accepted record of the cell is marked
verified, an accepted shared record is adopted; after a refusal the cell's own record is
recomputed and a shared one is not used. -/
def afterRevalidation (view : ViewId) (rev : Revision) : Source V → Bool → Pc V
  | .cell .., true => .reverify
  | .shared record _, true => .finishing (adoptOps view rev record)
  | .cell .., false => .attempt
  | .shared _ prev, false => .lead prev

/-- The revalidation of `src` ended, with the record accepted or refused. -/
def settle (w : World V) (view : ViewId) (a : Activation V) (src : Source V) (accepted : Bool) :
    World V × Activation V :=
  (w.logged (.revalidated view a.key src.isShared (src.foreign (w.rev view))
      (if accepted then .accepted else .refused)),
    a.moveTo (afterRevalidation view a.rev src accepted))

/-- A touch failed: `?` passes its error on.  For a shared record the cell was already put in
state running, and is left so. -/
def fail (w : World V) (view : ViewId) (a : Activation V) (src : Source V) (e : PicanteError) :
    World V × Activation V :=
  (w.logged (.revalidated view a.key src.isShared (src.foreign (w.rev view)) .failed),
    a.moveTo (.finishing [.raise e]))

/-- A dependency was touched. -/
def touched (w : World V) (view : ViewId) (a : Activation V) (src : Source V) (rest : List Dep) :
    PicanteResult Revision → World V × Activation V
  | .ok changedAt =>
    if changedAt > src.changedAt then settle w view a src false
    else (w, a.moveTo (.revalidate src rest))
  | .error e => fail w view a src e

/-- The cycle check of an access to `k`: its error if `k` is on the frame stack. -/
def findCycle (k : DynKey) (stack : List (Activation V)) : Option PicanteError :=
  if k ∈ stack.map (·.key) then some (.cycle k (stack.map (·.key)).reverse) else none

/-- The event of a cycle error. -/
def cycleEvent (rev : Revision) (view : ViewId) (k : DynKey) (stack : List (Activation V)) :
    Event :=
  .cycle view k ((segment k stack).any (·.touchesForeign rev))

/-! ## 4. One step -/

/-- One step of the activation `a`, which is on top of the activations `below` in a task on
`view`; `none` where it has to wait. -/
def stepActivation [DecidableEq V] (S : Schema V) (w : World V) (view : ViewId) (task : TaskId)
    (below : List (Activation V)) (a : Activation V) : Option (World V × Move V) :=
  let goto (w : World V) (pc : Pc V) : Option (World V × Move V) := some (w, .goto (a.moveTo pc))
  match a.pc with
  | .top => some (w, .goto { a with rev := w.rev view, pc := .listen })
  | .listen => goto w (.observe (w.cell view a.key).epoch)
  | .observe seen =>
    match w.state view a.key with
    | .ready r =>
      if r.verifiedAt = a.rev then goto w (.finishing [.checked (.ok (r.value, r.changedAt))])
      else goto w (.revalidate (.cell r.deps r.changedAt r.foreign) r.deps)
    | .poisoned e verifiedAt =>
      if verifiedAt = a.rev then goto w (.finishing [.checked (.error e)]) else goto w .attempt
    | .running .. => goto w (.parked seen)
    | .vacant => goto w .attempt
  | .parked seen => if (w.cell view a.key).epoch = seen then none else goto w .top
  | .revalidate src [] =>
    let (w, a) := settle w view a src true
    some (w, .goto a)
  | .revalidate src (dep :: rest) =>
    if S.registered dep.kind then
      match S.sectionType dep.kind with
      | .input =>
        let (w, a) := touched w view a src rest (.ok ((w.inputs view).touch dep))
        some (w, .goto a)
      | .interned =>
        match w.internedAt S dep with
        | some _ =>
          let (w, a) := touched w view a src rest (.ok 0)
          some (w, .goto a)
        | none =>
          let w := w.logged (.missing view dep)
          let (w, a) := touched w view a src rest (.error (World.missingInterned S dep))
          some (w, .goto a)
      | .derived =>
        match findCycle dep (a :: below) with
        | some e =>
          let w := w.logged (cycleEvent (w.rev view) view dep (a :: below))
          let (w, a) := touched w view a src rest (.error e)
          some (w, .goto a)
        | none => some (w, .call (a.moveTo (.touching src dep rest)) dep)
    else
      let (w, a) := settle w view a src false
      some (w, .goto a)
  | .touching .. => none
  | .reverify =>
    match w.state view a.key with
    | .ready r =>
      goto (w.setCell view a.key (.ready { r with verifiedAt := a.rev }))
        (.finishing [.checked (.ok (r.value, r.changedAt))])
    | _ => goto w .top
  | .attempt =>
    let start (prev : Previous V) : Option (World V × Move V) :=
      goto (w.setCell view a.key (.running a.rev ⟨task, below.length⟩)) (.sharedGet prev)
    match w.state view a.key with
    | .ready r =>
      if r.verifiedAt = a.rev then goto w .top else start (some (r.value, r.changedAt))
    | .poisoned _ verifiedAt => if verifiedAt = a.rev then goto w .top else start none
    | .running .. => goto w .top
    | .vacant => start none
  | .sharedGet prev =>
    let scope := w.scope view
    let gone := S.evicted w.lookups
    let w := { w with lookups := w.lookups + 1 }
    let w := if gone then w.evictShared scope a.key else w
    match w.shared scope a.key with
    | some record =>
      if record.verifiedAt = a.rev then goto w (.finishing (adoptOps view a.rev record))
      else goto w (.revalidate (.shared record prev) record.deps)
    | none => goto w (.lead prev)
  | .lead prev =>
    let key : InFlightKey := ⟨w.scope view, a.rev, a.key⟩
    match w.registry.filed key with
    | some e => goto w (.followReset e)
    | none =>
      let w' := { w.modifyRegistry (·.lead key view) with calls := w.calls + 1 }
      some (w', .goto
        { a with
          guard := some ⟨key, w.registry.nextEntry⟩
          pc := .computing prev (S.compute w.calls a.key) [] })
  | .followReset e => goto (w.setCell view a.key .vacant) (.followListen e)
  | .followListen e => goto w (.followRead e (w.registry.entries e).epoch)
  | .followRead e seen =>
    match (w.registry.entries e).state with
    | .running => goto w (.followParked e seen)
    | .done value deps changedAt =>
      goto w (.finishing
        (followOps view (w.registry.entries e).leader a.rev value deps changedAt))
    | .failed err => goto w (.finishing (followFailedOps a.rev err))
    | .cancelled => goto w .top
  | .followParked e seen =>
    if (w.registry.entries e).epoch = seen then none else goto w (.followListen e)
  | .computing prev (.done out) deps =>
    goto w (.finishing (finalizeOps view a.rev prev deps out))
  | .computing prev (.read d k) deps =>
    match S.sectionType d.kind with
    | .input => goto w (.computing prev (k (.ok ((w.inputs view).get d))) (deps ++ [d]))
    | .interned =>
      match w.internedAt S d with
      | some v => goto w (.computing prev (k (.ok (some v))) (deps ++ [d]))
      | none =>
        goto (w.logged (.missing view d))
          (.computing prev (k (.error (World.missingInterned S d))) (deps ++ [d]))
    | .derived =>
      -- a cycle error is raised before the dependency is recorded
      match findCycle d (a :: below) with
      | some e =>
        goto (w.logged (cycleEvent (w.rev view) view d (a :: below)))
          (.computing prev (k (.error e)) deps)
      | none => some (w, .call (a.moveTo (.reading prev d k (deps ++ [d]))) d)
  | .reading .. => none
  | .finishing [] => none
  | .finishing (op :: ops) => some (stepMicroOp w view a ops op)

/-- What the result of a nested access does to the activation that was waiting for it. -/
def resume (w : World V) (view : ViewId) (a : Activation V) (r : AccessResult V) :
    World V × Activation V :=
  match a.pc with
  | .touching src _ rest => touched w view a src rest (r.map (·.2))
  | .reading prev _ k deps => (w, a.moveTo (.computing prev (k (r.map fun vc => some vc.1)) deps))
  | _ => (w, a)

/-! ## 5. Suspension points -/

/-- Where the access is suspended at an `.await`, so that its future can be dropped there: a
lock of the cell, a notification, and everything the user's compute function awaits. -/
def Activation.awaits (a : Activation V) : Bool :=
  match a.pc with
  | .observe _ | .parked _ | .reverify | .attempt | .followReset _ | .followParked ..
  | .computing .. | .finishing (.setCell _ :: _) => true
  | _ => false

end Picante

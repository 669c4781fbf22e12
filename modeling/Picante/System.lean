/-
# The system: tasks, mutations and runs

A `Config` is the world with the tasks that access it and the `set` and `remove` calls in
progress.  One `Label` is one thing that can happen next: a task takes a step or is dropped, a
mutation takes a step, or an operation of the caller happens as a whole.  `step` is the
transition function; an interleaving is a list of labels.

A sequential program is a list of operations, each finished before the next starts: `runOp`
runs one, giving an access all the steps it asks for (`finish`).  Every sequential run is an
interleaving (`runOps_steps`), so what holds of interleavings holds of it.
-/
import Picante.Access
import Picante.Trans.Run

namespace Picante

variable {V : Type}

/-! ## 1. Configurations -/

/-- A top-level access: its view and key, whether it wants the value (`get`) or not (`touch`),
its stack of activations (innermost first) and its result once it has returned.  A task that
was dropped has neither. -/
structure Task (V : Type) where
  view : ViewId
  key : DynKey
  wantValue : Bool
  stack : List (Activation V)
  result : Option (AccessResult V)

/-- A task index that is not in use. -/
def Task.none : Task V := ⟨0, ⟨0, []⟩, false, [], .none⟩

/-- Where a call of `set` or `remove` is: about to check the slot under the read lock, to bump
the revision, to mark the runtime as divergent, to store the entry; or finished, with the
revision it returned. -/
inductive MutatorPc where
  | check
  | bump
  | diverge (rev : Revision)
  | store (rev : Revision)
  | done (rev : Revision)
  deriving DecidableEq, Repr

/-- A call of `set` (`value = some _`) or `remove` (`value = none`) on a slot of a view. -/
structure Mutator (V : Type) where
  view : ViewId
  key : DynKey
  value : Option V
  pc : MutatorPc

/-- The call has moved the revision of its view and has not stored its entry yet. -/
def Mutator.pending (m : Mutator V) : Bool :=
  match m.pc with
  | .diverge _ | .store _ => true
  | _ => false

/-- A state of the system. -/
structure Config (V : Type) where
  world : World V
  tasks : TaskId → Task V
  taskCount : Nat
  mutators : List (Mutator V)

/-- What can happen next. -/
inductive Label (V : Type) where
  /-- a task starts an access -/
  | spawn (view : ViewId) (key : DynKey) (wantValue : Bool)
  /-- a task takes a step -/
  | step (t : TaskId)
  /-- the future of a task is dropped at an await point -/
  | drop (t : TaskId)
  /-- a call of `set` or `remove`, as one step -/
  | mutate (view : ViewId) (key : DynKey) (value : Option V)
  /-- a call of `set` or `remove` starts -/
  | begin (view : ViewId) (key : DynKey) (value : Option V)
  /-- a call of `set` or `remove` takes a step -/
  | advance (m : Nat)
  /-- `intern` -/
  | intern (kind : QueryKindId) (value : V)
  /-- `bump_revision` -/
  | bump (view : ViewId)
  /-- `from_database`, as one step -/
  | snapshot

namespace Config

/-- A new database, no task. -/
def init : Config V := { world := .init, tasks := fun _ => .none, taskCount := 0, mutators := [] }

/-- The task is running: it has been spawned, and has neither returned nor been dropped. -/
def Pending (c : Config V) (t : TaskId) : Prop := (c.tasks t).stack ≠ []

instance (c : Config V) (t : TaskId) : Decidable (c.Pending t) :=
  inferInstanceAs (Decidable (_ ≠ []))

/-! ## 2. Steps -/

/-- Changes one task. -/
def setTask (c : Config V) (t : TaskId) (task : Task V) : Config V :=
  { c with tasks := Function.update c.tasks t task }

/-- Carries out the move of the top activation of task `t`, with `below` under it. -/
def move (c : Config V) (t : TaskId) (below : List (Activation V)) :
    World V × Move V → Config V
  | (w, .goto a) =>
    { c with world := w }.setTask t { c.tasks t with stack := a :: below }
  | (w, .call a child) =>
    { c with world := w }.setTask t { c.tasks t with stack := .enter child :: a :: below }
  | (w, .ret r) =>
    match below with
    | [] => { c with world := w }.setTask t { c.tasks t with stack := [], result := some r }
    | a :: below =>
      let (w, a) := resume w (c.tasks t).view a r
      { c with world := w }.setTask t { c.tasks t with stack := a :: below }

/-- A step of a task. -/
def stepTask [DecidableEq V] (S : Schema V) (c : Config V) (t : TaskId) : Option (Config V) :=
  match (c.tasks t).stack with
  | [] => none
  | a :: below =>
    match stepActivation S c.world (c.tasks t).view t below a with
    | none => none
    | some m => some (c.move t below m)

/-- Drops every live guard of a stack of activations. -/
def cancelGuards (w : World V) : List (Activation V) → World V
  | [] => w
  | a :: as =>
    match a.guard with
    | some g => cancelGuards (w.modifyRegistry (·.cancel g)) as
    | none => cancelGuards w as

/-- A task is dropped while it is suspended: its guards are dropped, nothing else is undone. -/
def dropTask (c : Config V) (t : TaskId) : Option (Config V) :=
  match (c.tasks t).stack with
  | [] => none
  | a :: below =>
    if a.awaits then
      some ({ c with world := cancelGuards c.world (a :: below) }.setTask t
        { c.tasks t with stack := [] })
    else none

/-- Whether the check under the read lock finds nothing to do. -/
def noChange [DecidableEq V] (inputs : Inputs V) (k : DynKey) : Option V → Bool
  | some value => inputs.holds k value
  | none => inputs.isGone k

/-- A whole call of `set` or `remove`. -/
def mutateWorld [DecidableEq V] (w : World V) (view : ViewId) (k : DynKey) (value : Option V) :
    World V :=
  if noChange (w.inputs view) k value then w
  else
    let w := w.modifyRuntime view (·.bumpRevision)
    (w.markDivergent view).storeInput view k value (w.rev view)

/-- One step of a call of `set` or `remove`. -/
def stepMutator [DecidableEq V] (w : World V) (m : Mutator V) : Option (World V × Mutator V) :=
  match m.pc with
  | .check =>
    if noChange (w.inputs m.view) m.key m.value then
      some (w, { m with pc := .done ((w.inputs m.view).touch m.key) })
    else some (w, { m with pc := .bump })
  | .bump =>
    let w := w.modifyRuntime m.view (·.bumpRevision)
    some (w, { m with pc := .diverge (w.rev m.view) })
  | .diverge rev => some (w.markDivergent m.view, { m with pc := .store rev })
  | .store rev => some (w.storeInput m.view m.key m.value rev, { m with pc := .done rev })
  | .done _ => none

/-- The transition function. -/
def step [DecidableEq V] (S : Schema V) (c : Config V) : Label V → Option (Config V)
  | .spawn view key wantValue =>
    if view < c.world.viewCount ∧ S.sectionType key.kind = .derived then
      some { c with
        tasks := Function.update c.tasks c.taskCount
          ⟨view, key, wantValue, [.enter key], none⟩
        taskCount := c.taskCount + 1 }
    else none
  | .step t => stepTask S c t
  | .drop t => dropTask c t
  | .mutate view key value =>
    if view < c.world.viewCount ∧ S.sectionType key.kind = .input then
      some { c with world := mutateWorld c.world view key value }
    else none
  | .begin view key value =>
    if view < c.world.viewCount ∧ S.sectionType key.kind = .input then
      some { c with mutators := c.mutators ++ [⟨view, key, value, .check⟩] }
    else none
  | .advance m =>
    match c.mutators[m]? with
    | none => none
    | some call =>
      match stepMutator c.world call with
      | none => none
      | some (w, call) => some { c with world := w, mutators := c.mutators.set m call }
  | .intern kind value => some { c with world := c.world.intern kind value }
  | .bump view =>
    if view < c.world.viewCount then
      some { c with world := c.world.modifyRuntime view (·.bumpRevision) }
    else none
  | .snapshot => some { c with world := c.world.snapshot }

/-! ## 3. Sequential runs -/

/-- An operation of a sequential program. -/
inductive Op (V : Type) where
  | mutate (view : ViewId) (key : DynKey) (value : Option V)
  | intern (kind : QueryKindId) (value : V)
  | bump (view : ViewId)
  | snapshot
  | access (view : ViewId) (key : DynKey) (wantValue : Bool)

/-- Gives task `t` its steps until it has returned; `none` if it waits for ever, or longer
than the fuel reaches. -/
def finish [DecidableEq V] (S : Schema V) (t : TaskId) : Nat → Config V → Option (Config V)
  | 0, _ => none
  | fuel + 1, c =>
    match (c.tasks t).stack with
    | [] => some c
    | _ :: _ =>
      match stepTask S c t with
      | none => none
      | some c => finish S t fuel c

/-- Runs one operation to its end. -/
def runOp [DecidableEq V] (S : Schema V) (fuel : Nat) (c : Config V) : Op V → Option (Config V)
  | .mutate view key value => step S c (.mutate view key value)
  | .intern kind value => step S c (.intern kind value)
  | .bump view => step S c (.bump view)
  | .snapshot => step S c .snapshot
  | .access view key wantValue =>
    match step S c (.spawn view key wantValue) with
    | none => none
    | some c' => finish S c.taskCount fuel c'

/-- Runs the operations one after another. -/
def runOps [DecidableEq V] (S : Schema V) (fuel : Nat) : Config V → List (Op V) →
    Option (Config V)
  | c, [] => some c
  | c, op :: ops =>
    match runOp S fuel c op with
    | none => none
    | some c => runOps S fuel c ops

end Config

end Picante

/-
# Computations that read several keys at once

A compute function may join several futures and so have several reads under way in one task.  All
of them share the frame stack of the task (`frame.rs`): a read is recorded in the frame on top,
whichever computation that belongs to, a guard that is dropped pops the frame on top, whichever
that is, and the cycle check looks through the whole stack.

`Access.lean` has one stack of activations for a task, on which every activation runs under its own
frame.  Here a task has a set of calls in progress, each an activation with the frame it has pushed
and, while it computes, the future of its compute function; the frames are a stack of their own.
The calls take their steps in any order; a step is that of `Access.lean`, together with what it does
to the frames.  `System.polls` says that a call is left at an `.await` only.

* `Body`, `Future` -- the program of a compute function, and its future in progress.
* `Task` -- the calls of a task and its frame stack.
* `System.step` -- one step of a call, or an operation of the caller.
-/
import Picante.Cutoff.Recompute

namespace Picante

/-- In `try_revalidate`. -/
def Pc.revalidates {V : Type} : Pc V → Bool
  | .revalidate .. | .touching .. => true
  | _ => false

/-- Where a call can have a frame on the stack. -/
def Pc.framed {V : Type} : Pc V → Bool
  | .revalidate .. | .touching .. | .computing .. | .reading .. | .finishing _ => true
  | _ => false

/-- At the head of the loop. -/
def Pc.isTop {V : Type} : Pc V → Bool
  | .top => true
  | _ => false

end Picante

namespace Picante.Joined

open Config

variable {V : Type}

/-! ## 1. Programs -/

/-- The program of a compute function: it reads keys, suspends itself for a while, and joins two
programs that run at once. -/
inductive Body (V : Type) where
  | done (out : PicanteResult V)
  | read (d : DynKey) (k : PicanteResult (Option V) → Body V)
  | pause (rest : Body V)
  | join (l r : Body V) (k : PicanteResult V → PicanteResult V → Body V)

/-- The future of a compute function, or a part of one: none, about to go on, waiting for a read of
a derived query, or two parts that are joined. -/
inductive Future (V : Type) where
  | idle
  | run (b : Body V)
  | wait (k : PicanteResult (Option V) → Body V)
  | both (l r : Future V) (k : PicanteResult V → PicanteResult V → Body V)

/-- Where in a future a part of it is: at each join, to the right or not. -/
abbrev Path := List Bool

/-- The part of a future at a path. -/
def Future.at : Future V → Path → Option (Future V)
  | f, [] => some f
  | .both l r _, right :: p => if right then r.at p else l.at p
  | _, _ :: _ => none

@[simp] theorem Future.at_nil (f : Future V) : f.at [] = some f := by
  cases f <;> rfl

/-- Replaces the part of a future at a path. -/
def Future.set : Future V → Path → Future V → Future V
  | _, [], g => g
  | .both l r k, right :: p, g => if right then .both l (r.set p g) k else .both (l.set p g) r k
  | f, _ :: _, _ => f

/-! ## 2. Tasks -/

/-- Index of a frame, and of a call in progress, in a task. -/
abbrev FrameId := Nat
abbrev CallId := Nat

/-- A frame: the query it is for, and the dependencies recorded in it. -/
structure Frame where
  key : DynKey
  deps : List Dep

/-- A call of `access_scoped_erased` in progress: the call and the part of its future that wait for
it, the frame it has pushed and not popped, and, while it computes, the future of its compute
function.  What that has read so far is kept for the proofs only. -/
structure Call (V : Type) where
  act : Activation V
  parent : Option (CallId × Path)
  frame : Option FrameId
  future : Future V
  reads : List DynKey

namespace Call

/-- A call that is about to enter its loop. -/
def enter (key : DynKey) (parent : Option (CallId × Path)) : Call V :=
  ⟨.enter key, parent, none, .idle, []⟩

/-- Where a call can be left: at an `.await` of its own, or while it waits for a nested access. -/
def suspended (c : Call V) : Bool :=
  match c.act.pc with
  | .touching .. => true
  | _ => c.act.awaits

/-- The key that the compute function reads when its future is polled at the path. -/
def asks (c : Call V) (path : Path) : Option DynKey :=
  match c.act.pc, c.future.at path with
  | .computing .., some (.run (.read d _)) => some d
  | _, _ => none

/-- The key for which the stack is then checked for a cycle: that of a derived query which is read
or touched. -/
def checks (S : Schema V) (c : Call V) (path : Path) : Option DynKey :=
  match c.act.pc with
  | .revalidate _ (dep :: _) =>
    if S.registered dep.kind ∧ S.sectionType dep.kind = .derived then some dep else none
  | _ => (c.asks path).filter fun d => S.sectionType d.kind = .derived

end Call

/-- A task: its calls in progress, all frames it has made, and its frame stack, the top first. -/
structure Task (V : Type) where
  view : ViewId
  calls : CallId → Option (Call V)
  nextCall : CallId
  frames : FrameId → Frame
  nextFrame : FrameId
  stack : List FrameId
  result : Option (AccessResult V)

namespace Task

/-- A task that has not started. -/
def blank : Task V := ⟨0, fun _ => none, 0, fun _ => ⟨⟨0, []⟩, []⟩, 0, [], none⟩

/-- A task that is about to access `key`. -/
def spawned (view : ViewId) (key : DynKey) : Task V :=
  { blank with
    view
    calls := Function.update blank.calls 0 (some (.enter key none))
    nextCall := 1 }

variable (T : Task V)

/-! ### The frame stack -/

/-- `find_cycle`: its error if a frame on the stack is for `requested`. -/
def findCycle (requested : DynKey) : Option PicanteError :=
  let keys := T.stack.map fun f => (T.frames f).key
  if requested ∈ keys then some (.cycle requested keys.reverse) else none

/-- The recorded dependencies of a frame. -/
def setDeps (f : FrameId) (deps : List Dep) : Task V :=
  { T with frames := Function.update T.frames f { T.frames f with deps } }

/-- `record_dep`: in the frame on top of the stack. -/
def recordDep (d : Dep) : Task V :=
  match T.stack with
  | [] => T
  | f :: _ => T.setDeps f ((T.frames f).deps ++ [d])

/-- `push_frame` of a new frame. -/
def pushFrame (key : DynKey) : Task V :=
  { T with
    frames := Function.update T.frames T.nextFrame ⟨key, []⟩
    nextFrame := T.nextFrame + 1
    stack := T.nextFrame :: T.stack }

/-- What dropping a `FrameGuard` does: it pops the frame on top. -/
def popFrame : Task V := { T with stack := T.stack.tail }

/-! ### Calls -/

/-- The activations that a call started by `parent` is nested in, the nearest first. -/
def waiting : Nat → Option (CallId × Path) → List (Activation V)
  | n + 1, some (pid, _) =>
    match T.calls pid with
    | none => []
    | some p => p.act :: waiting n p.parent
  | _, _ => []

/-- The activations that a call is nested in.  They are of no account for what it does: they say
how deep it is nested, for the owner of its cell, and which activations a cycle goes through, for
the event. -/
def below (c : Call V) : List (Activation V) := T.waiting T.nextCall c.parent

/-- The world after a cycle check of the call `c` for `d` has failed. -/
def struck (w : World V) (c : Call V) (d : DynKey) : World V :=
  w.logged (cycleEvent (w.rev T.view) T.view d (c.act :: T.below c))

/-- Changes one call, or ends it. -/
def put (id : CallId) (c : Option (Call V)) : Task V :=
  { T with calls := Function.update T.calls id c }

/-- Starts a nested access. -/
def call (key : DynKey) (parent : CallId × Path) : Task V :=
  { T.put T.nextCall (some (.enter key (some parent))) with nextCall := T.nextCall + 1 }

end Task

/-! ## 3. One step of a call -/

section step

variable (T : Task V) (body : DynKey → Body V) (id : CallId) (c : Call V)

/-- The call goes on as `a`.  It pushes a frame when it enters `try_revalidate` or calls its compute
function; it drops the guard when it leaves `try_revalidate`, and that of the compute function when
it returns to the head of its loop. -/
def Task.moved (a : Activation V) : Task V :=
  if c.frame.isNone then
    if a.pc.revalidates then
      (T.pushFrame a.key).put id (some { c with act := a, frame := some T.nextFrame })
    else if a.pc.computes then
      (T.pushFrame a.key).put id (some
        { c with act := a, frame := some T.nextFrame, future := .run (body a.key), reads := [] })
    else T.put id (some { c with act := a })
  else if c.act.pc.revalidates && !a.pc.revalidates || a.pc.isTop then
    T.popFrame.put id (some { c with act := a, frame := none })
  else T.put id (some { c with act := a })

/-- The call ends: the guard it still holds is dropped. -/
def Task.ended : Task V := (if c.frame.isSome then T.popFrame else T).put id none

/-- The call has returned `r`: whoever waits for it goes on. -/
def Task.resumed (w : World V) (parent : Option (CallId × Path)) (r : AccessResult V) :
    World V × Task V :=
  match parent with
  | none => (w, { T with result := some r })
  | some (pid, path) =>
    match T.calls pid with
    | none => (w, T)
    | some p =>
      match p.act.pc with
      | .touching src _ rest =>
        let (w, a) := touched w T.view p.act src rest (r.map (·.2))
        (w, T.moved body pid p a)
      | .computing .. =>
        match p.future.at path with
        | some (.wait k) =>
          (w, T.put pid (some
            { p with future := p.future.set path (.run (k (r.map fun vc => some vc.1))) }))
        | _ => (w, T)
      | _ => (w, T)

/-- The compute function has ended with `out`: its dependencies are taken and published. -/
def Task.completed [DecidableEq V] (prev : Previous V) (out : PicanteResult V) : Task V :=
  match c.frame with
  | none => T
  | some f =>
    (T.setDeps f []).put id (some { c with
      act := c.act.moveTo
        (.finishing (finalizeOps T.view c.act.rev prev (T.frames f).deps out))
      future := .idle })

variable (S : Schema V) (w : World V)

/-- Polls the part of the future of a computing call at a path. -/
def Task.poll [DecidableEq V] (prev : Previous V) (path : Path) : Option (World V × Task V) :=
  let goto (f : Future V) : Call V := { c with future := c.future.set path f }
  match c.future.at path with
  | some (.run (.done out)) => if path = [] then some (w, T.completed id c prev out) else none
  | some (.run (.pause b)) => some (w, T.put id (some (goto (.run b))))
  | some (.run (.join l r k)) => some (w, T.put id (some (goto (.both (.run l) (.run r) k))))
  | some (.both (.run (.done x)) (.run (.done y)) k) =>
    some (w, T.put id (some (goto (.run (k x y)))))
  | some (.run (.read d k)) =>
    let read (f : Future V) : Option (Call V) := some { goto f with reads := c.reads ++ [d] }
    match S.sectionType d.kind with
    | .input =>
      some (w, (T.recordDep d).put id (read (.run (k (.ok ((w.inputs T.view).get d))))))
    | .interned =>
      match w.internedAt S d with
      | some v => some (w, (T.recordDep d).put id (read (.run (k (.ok (some v))))))
      | none =>
        some (w.logged (.missing T.view d),
          (T.recordDep d).put id (read (.run (k (.error (World.missingInterned S d))))))
    | .derived =>
      -- a cycle error is raised before the dependency is recorded
      match T.findCycle d with
      | some e => some (T.struck w c d, T.put id (read (.run (k (.error e)))))
      | none => some (w, ((T.recordDep d).put id (read (.wait k))).call d (id, path))
  | _ => none

/-- A step that is one of `Access.lean`, with what it does to the frames. -/
def Task.proceed [DecidableEq V] (t : TaskId) : Option (World V × Task V) :=
  match stepActivation S w T.view t (T.below c) c.act with
  | some (w', .goto a) => some (w', T.moved body id c a)
  | some (w', .ret r) => some ((T.ended id c).resumed body w' c.parent r)
  | _ => none

/-- One step of a call of the task; the path matters while it computes. -/
def Task.step [DecidableEq V] (t : TaskId) (path : Path) : Option (World V × Task V) :=
  match T.calls id with
  | none => none
  | some c =>
    match c.act.pc with
    | .computing prev _ _ => T.poll id c S w prev path
    | .revalidate src (dep :: rest) =>
      if S.registered dep.kind ∧ S.sectionType dep.kind = .derived then
        match T.findCycle dep with
        | some e =>
          let (w, a) := touched (T.struck w c dep) T.view c.act src rest (.error e)
          some (w, T.moved body id c a)
        | none =>
          some (w, (T.put id (some { c with act := c.act.moveTo (.touching src dep rest) })).call
            dep (id, []))
      else T.proceed body id c S w t
    | _ => T.proceed body id c S w t

end step

/-! ## 4. The system -/

/-- A state of the system. -/
structure System (V : Type) where
  world : World V
  tasks : TaskId → Task V
  taskCount : Nat

/-- What can happen next. -/
inductive Label (V : Type) where
  /-- a task starts an access -/
  | spawn (view : ViewId) (key : DynKey)
  /-- a call of a task takes a step -/
  | step (t : TaskId) (id : CallId) (path : Path)
  /-- a call of `set` or `remove` -/
  | mutate (view : ViewId) (key : DynKey) (value : Option V)
  /-- `intern` -/
  | intern (kind : QueryKindId) (value : V)
  /-- `bump_revision` -/
  | bump (view : ViewId)
  /-- `from_database` -/
  | snapshot

namespace System

/-- A new database, no task. -/
def init : System V := ⟨.init, fun _ => .blank, 0⟩

/-- The transition function; the `n`-th call of a compute function, for key `q`, runs `body n q`,
and `S.compute` is not looked at. -/
def step [DecidableEq V] (S : Schema V) (body : Nat → DynKey → Body V) (c : System V) :
    Label V → Option (System V)
  | .spawn view key =>
    if view < c.world.viewCount ∧ S.sectionType key.kind = .derived then
      some { c with
        tasks := Function.update c.tasks c.taskCount (.spawned view key)
        taskCount := c.taskCount + 1 }
    else none
  | .step t id path =>
    match (c.tasks t).step (body c.world.calls) id S c.world t path with
    | none => none
    | some (w, T) => some { c with world := w, tasks := Function.update c.tasks t T }
  | .mutate view key value =>
    if view < c.world.viewCount ∧ S.sectionType key.kind = .input then
      some { c with world := mutateWorld c.world view key value }
    else none
  | .intern kind value => some { c with world := c.world.intern kind value }
  | .bump view =>
    if view < c.world.viewCount then
      some { c with world := c.world.modifyRuntime view (·.bumpRevision) }
    else none
  | .snapshot => some { c with world := c.world.snapshot }

/-- While one call of a task takes its steps, the others of the task are suspended. -/
def polls (c : System V) : Label V → Bool
  | .step t id _ => (List.range (c.tasks t).nextCall).all fun id' =>
    id' == id || ((c.tasks t).calls id').all Call.suspended
  | _ => true

end System

end Picante.Joined

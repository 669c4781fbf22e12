/-
# Cells, views and the shared world

`World` is everything an access can see: the views (a database and the snapshots made from it,
each with its runtime, its input slots and its derived cells), the interning tables they share,
and the process-wide tables of `Inflight.lean`.  A step of the system changes it through the
few updates of section 3, and is known by what each of them leaves alone (section 4).

Kept for the proofs only, and read by no operation: the owner of a running cell, whether the
value of a ready cell was computed by a snapshot (`foreign`), and the log.
-/
import Picante.Runtime
import Picante.Ingredient
import Picante.Inflight
import Picante.ReadProg.Basic

namespace Picante

variable {V : Type}

/-! ## 1. Cells -/

/-- Index of a task. -/
abbrev TaskId := Nat

/-- Who put a cell in state running: a task, and the depth of the access on its stack. -/
structure Owner where
  task : TaskId
  depth : Nat
  deriving DecidableEq, Repr

/-- The contents of a ready cell. -/
structure ReadyRecord (V : Type) where
  value : V
  verifiedAt : Revision
  changedAt : Revision
  deps : List Dep
  foreign : Bool
  deriving DecidableEq, Repr

/-- State of a derived cell. -/
inductive ErasedState (V : Type) where
  | vacant
  | running (startedAt : Revision) (owner : Owner)
  | ready (r : ReadyRecord V)
  | poisoned (error : PicanteError) (verifiedAt : Revision)
  deriving DecidableEq, Repr

/-- A derived cell: its state, and how often its waiters were notified. -/
structure ErasedCell (V : Type) where
  state : ErasedState V
  epoch : Nat
  deriving DecidableEq, Repr

/-- A new cell; a key that has no cell yet behaves as this one. -/
def ErasedCell.new : ErasedCell V := ⟨.vacant, 0⟩

/-- What a snapshot keeps of a cell: a copy if it is ready, nothing otherwise. -/
def ErasedCell.snapshot (c : ErasedCell V) : ErasedCell V :=
  match c.state with
  | .ready r => ⟨.ready r, 0⟩
  | _ => .new

/-- What a snapshot finds in a cell is a record the database has there. -/
theorem ErasedCell.ready_of_snapshot {c : ErasedCell V} {R : ReadyRecord V}
    (h : c.snapshot.state = .ready R) : c.state = .ready R := by
  unfold snapshot at h
  split at h
  · next r hs => rw [hs, ← h]
  · cases h

/-- A poisoned cell is not copied. -/
theorem ErasedCell.not_poisoned_of_snapshot {c : ErasedCell V} {e : PicanteError} {ver : Revision} :
    c.snapshot.state ≠ .poisoned e ver := by
  unfold snapshot
  split <;> nofun

/-! ## 2. Views and the world -/

/-- A database or a snapshot. -/
structure View (V : Type) where
  runtime : Runtime
  inputs : Inputs V
  cells : DynKey → ErasedCell V

/-- The program of a query: it reads keys, each answered by an error or by the content read
(`none` for an absent input), and ends with an error or its value. -/
abbrev Query (V : Type) := ReadProg.Prog DynKey PicanteError (Option V) V

/-- What is fixed for a family of views: the ingredients, and the parts that are not picante's
code.  `compute n q` is the program the `n`-th call of a compute function runs, for key `q`;
`evicted n` says whether the record looked up by the `n`-th lookup of the shared cache has been
evicted by then; `decodeId` reads an interned id from its key. -/
structure Schema (V : Type) where
  sectionType : QueryKindId → SectionType
  registered : QueryKindId → Bool
  compute : Nat → DynKey → Query V
  evicted : Nat → Bool
  decodeId : Key → Option Nat

/-- How the revalidation of a record ended. -/
inductive Verdict where
  | accepted
  | refused
  | failed
  deriving DecidableEq, Repr

/-- What the log records of a run: the outcome of a revalidation (of the cell's own record or
of a shared one, foreign to the view or not), a cycle error (and whether the revalidation of a
foreign record lies on the cycle), and an interned id that is not there. -/
inductive Event where
  | revalidated (view : ViewId) (key : DynKey) (shared foreign : Bool) (verdict : Verdict)
  | cycle (view : ViewId) (key : DynKey) (underForeign : Bool)
  | missing (view : ViewId) (key : DynKey)
  deriving DecidableEq, Repr

/-- Everything the accesses on a family of views share. -/
structure World (V : Type) where
  views : ViewId → View V
  viewCount : Nat
  interned : QueryKindId → InternedIngredient V
  shared : RuntimeId → DynKey → Option (SharedCacheRecord V)
  registry : Registry V
  nextRuntimeId : RuntimeId
  lookups : Nat
  calls : Nat
  log : List Event

namespace World

/-- The current revision of a view. -/
def rev (w : World V) (i : ViewId) : Revision := (w.views i).runtime.currentRevision

/-- The input slots of a view. -/
def inputs (w : World V) (i : ViewId) : Inputs V := (w.views i).inputs

/-- A derived cell of a view. -/
def cell (w : World V) (i : ViewId) (k : DynKey) : ErasedCell V := (w.views i).cells k

/-- The state of a derived cell of a view. -/
def state (w : World V) (i : ViewId) (k : DynKey) : ErasedState V := (w.cell i k).state

/-- The cache scope of a view. -/
def scope (w : World V) (i : ViewId) : RuntimeId := (w.views i).runtime.cacheScopeId

/-- The identity of a view that nothing changes: its family id, and whether it is a snapshot. -/
def origin (w : World V) (i : ViewId) : RuntimeId × Bool :=
  ((w.views i).runtime.id, (w.views i).runtime.isSnapshot)

/-- The interned value a key stands for. -/
def internedAt (w : World V) (S : Schema V) (k : DynKey) : Option V :=
  (S.decodeId k.key).bind (w.interned k.kind).byId

/-- The error of an interned read whose id is not in the table. -/
def missingInterned (S : Schema V) (k : DynKey) : PicanteError :=
  match S.decodeId k.key with
  | some id => .missingInternedValue k.kind id
  | none => .decode "key" ""

/-! ## 3. Updates -/

/-- Changes one view. -/
def modifyView (w : World V) (i : ViewId) (f : View V → View V) : World V :=
  { w with views := Function.update w.views i (f (w.views i)) }

/-- Changes the runtime of one view. -/
def modifyRuntime (w : World V) (i : ViewId) (f : Runtime → Runtime) : World V :=
  w.modifyView i fun v => { v with runtime := f v.runtime }

/-- Replaces the state of a cell, under its lock. -/
def setCell (w : World V) (i : ViewId) (k : DynKey) (st : ErasedState V) : World V :=
  w.modifyView i fun v =>
    { v with cells := Function.update v.cells k { v.cells k with state := st } }

/-- Wakes the waiters of a cell. -/
def notifyCell (w : World V) (i : ViewId) (k : DynKey) : World V :=
  w.modifyView i fun v =>
    { v with cells := Function.update v.cells k { v.cells k with epoch := (v.cells k).epoch + 1 } }

/-- Stores an entry in an input slot. -/
def storeInput (w : World V) (i : ViewId) (k : DynKey) (value : Option V) (rev : Revision) :
    World V :=
  w.modifyView i fun v => { v with inputs := v.inputs.store k value rev }

/-- Stores a completed result in the shared cache. -/
def putShared (w : World V) (scope : RuntimeId) (k : DynKey) (r : SharedCacheRecord V) : World V :=
  { w with
    shared := Function.update w.shared scope (Function.update (w.shared scope) k (some r)) }

/-- Removes a record from the shared cache. -/
def evictShared (w : World V) (scope : RuntimeId) (k : DynKey) : World V :=
  { w with
    shared := Function.update w.shared scope (Function.update (w.shared scope) k none) }

/-- Changes the in-flight registry. -/
def modifyRegistry (w : World V) (f : Registry V → Registry V) : World V :=
  { w with registry := f w.registry }

/-- Records an event. -/
def logged (w : World V) (e : Event) : World V := { w with log := e :: w.log }

/-- Marks a view as divergent; the fresh id is drawn only when it is used. -/
def markDivergent (w : World V) (i : ViewId) : World V :=
  let diverges := (w.views i).runtime.divergesNow
  { w.modifyRuntime i (·.markDivergent w.nextRuntimeId) with
    nextRuntimeId := if diverges then w.nextRuntimeId + 1 else w.nextRuntimeId }

/-- Interns a value. -/
def intern [DecidableEq V] (w : World V) (kind : QueryKindId) (value : V) : World V :=
  { w with
    interned := Function.update w.interned kind ((w.interned kind).intern value).1 }

/-- `from_database`, as one step: a view with the database's family id and revision, a copy of
its inputs and copies of its ready cells.  The interning tables are shared as they are. -/
def snapshot (w : World V) : World V :=
  let db := w.views 0
  { w with
    views := Function.update w.views w.viewCount
      { runtime :=
          (Runtime.newForSnapshot db.runtime.id).setCurrentRevision db.runtime.currentRevision
        inputs := db.inputs
        cells := fun k => (db.cells k).snapshot }
    viewCount := w.viewCount + 1 }

/-- A new database, and nothing in the process-wide tables. -/
def init : World V :=
  { views := fun _ => { runtime := Runtime.new 1, inputs := fun _ => none, cells := fun _ => .new }
    viewCount := 1
    interned := fun _ => .empty
    shared := fun _ _ => none
    registry := .empty
    nextRuntimeId := 2
    lookups := 0
    calls := 0
    log := [] }

/-! ## 4. What the updates change -/

section frames

variable (w : World V) (i j : ViewId) (k k' : DynKey)

theorem state_setCell (st : ErasedState V) :
    (w.setCell i k st).state j k' = if j = i ∧ k' = k then st else w.state j k' := by
  by_cases hj : j = i
  · subst hj
    by_cases hk : k' = k
    · subst hk; simp [setCell, modifyView, state, cell]
    · simp [setCell, modifyView, state, cell, hk]
  · simp [setCell, modifyView, state, cell, hj]

@[simp] theorem state_setCell_self (st : ErasedState V) : (w.setCell i k st).state i k = st := by
  simp [state_setCell]

@[simp] theorem rev_setCell (st : ErasedState V) : (w.setCell i k st).rev j = w.rev j := by
  by_cases hj : j = i
  · subst hj; simp [setCell, modifyView, rev]
  · simp [setCell, modifyView, rev, Function.update_of_ne hj]

@[simp] theorem scope_setCell (st : ErasedState V) : (w.setCell i k st).scope j = w.scope j := by
  by_cases hj : j = i
  · subst hj; simp [setCell, modifyView, scope]
  · simp [setCell, modifyView, scope, Function.update_of_ne hj]

@[simp] theorem origin_setCell (st : ErasedState V) :
    (w.setCell i k st).origin j = w.origin j := by
  by_cases hj : j = i
  · subst hj; simp [setCell, modifyView, origin]
  · simp [setCell, modifyView, origin, Function.update_of_ne hj]

@[simp] theorem inputs_setCell (st : ErasedState V) :
    (w.setCell i k st).inputs j = w.inputs j := by
  by_cases hj : j = i
  · subst hj; simp [setCell, modifyView, inputs]
  · simp [setCell, modifyView, inputs, Function.update_of_ne hj]

@[simp] theorem epoch_setCell (st : ErasedState V) :
    ((w.setCell i k st).cell j k').epoch = (w.cell j k').epoch := by
  by_cases hj : j = i
  · subst hj
    by_cases hk : k' = k
    · subst hk; simp [setCell, modifyView, cell]
    · simp [setCell, modifyView, cell, Function.update_of_ne hk]
  · simp [setCell, modifyView, cell, Function.update_of_ne hj]

theorem cell_setCell_of_ne (st : ErasedState V) (h : ¬ (j = i ∧ k' = k)) :
    (w.setCell i k st).cell j k' = w.cell j k' := by
  rcases eq_or_ne j i with rfl | hj
  · have hk : k' ≠ k := fun heq => h ⟨rfl, heq⟩
    simp [setCell, modifyView, cell, hk]
  · simp [setCell, modifyView, cell, hj]

theorem cell_notifyCell_of_ne (h : ¬ (j = i ∧ k' = k)) :
    (w.notifyCell i k).cell j k' = w.cell j k' := by
  rcases eq_or_ne j i with rfl | hj
  · have hk : k' ≠ k := fun heq => h ⟨rfl, heq⟩
    simp [notifyCell, modifyView, cell, hk]
  · simp [notifyCell, modifyView, cell, hj]

theorem epoch_notifyCell :
    ((w.notifyCell i k).cell j k').epoch =
      if j = i ∧ k' = k then (w.cell j k').epoch + 1 else (w.cell j k').epoch := by
  by_cases hj : j = i
  · subst hj
    by_cases hk : k' = k
    · subst hk; simp [notifyCell, modifyView, cell]
    · simp [notifyCell, modifyView, cell, hk]
  · simp [notifyCell, modifyView, cell, hj]

@[simp] theorem state_notifyCell : (w.notifyCell i k).state j k' = w.state j k' := by
  by_cases hj : j = i
  · subst hj
    by_cases hk : k' = k
    · subst hk; simp [notifyCell, modifyView, state, cell]
    · simp [notifyCell, modifyView, state, cell, Function.update_of_ne hk]
  · simp [notifyCell, modifyView, state, cell, Function.update_of_ne hj]

@[simp] theorem rev_notifyCell : (w.notifyCell i k).rev j = w.rev j := by
  by_cases hj : j = i
  · subst hj; simp [notifyCell, modifyView, rev]
  · simp [notifyCell, modifyView, rev, Function.update_of_ne hj]

@[simp] theorem scope_notifyCell : (w.notifyCell i k).scope j = w.scope j := by
  by_cases hj : j = i
  · subst hj; simp [notifyCell, modifyView, scope]
  · simp [notifyCell, modifyView, scope, Function.update_of_ne hj]

@[simp] theorem origin_notifyCell : (w.notifyCell i k).origin j = w.origin j := by
  by_cases hj : j = i
  · subst hj; simp [notifyCell, modifyView, origin]
  · simp [notifyCell, modifyView, origin, Function.update_of_ne hj]

@[simp] theorem inputs_notifyCell : (w.notifyCell i k).inputs j = w.inputs j := by
  by_cases hj : j = i
  · subst hj; simp [notifyCell, modifyView, inputs]
  · simp [notifyCell, modifyView, inputs, Function.update_of_ne hj]

variable (f : Runtime → Runtime)

@[simp] theorem cell_modifyRuntime : (w.modifyRuntime i f).cell j k = w.cell j k := by
  by_cases hj : j = i
  · subst hj; simp [modifyRuntime, modifyView, cell]
  · simp [modifyRuntime, modifyView, cell, Function.update_of_ne hj]

@[simp] theorem state_modifyRuntime : (w.modifyRuntime i f).state j k = w.state j k := by
  simp [state]

@[simp] theorem inputs_modifyRuntime : (w.modifyRuntime i f).inputs j = w.inputs j := by
  by_cases hj : j = i
  · subst hj; simp [modifyRuntime, modifyView, inputs]
  · simp [modifyRuntime, modifyView, inputs, Function.update_of_ne hj]

theorem rev_modifyRuntime :
    (w.modifyRuntime i f).rev j =
      if j = i then (f (w.views i).runtime).currentRevision else w.rev j := by
  by_cases hj : j = i
  · subst hj; simp [modifyRuntime, modifyView, rev]
  · simp [modifyRuntime, modifyView, rev, hj]

theorem scope_modifyRuntime :
    (w.modifyRuntime i f).scope j =
      if j = i then (f (w.views i).runtime).cacheScopeId else w.scope j := by
  by_cases hj : j = i
  · subst hj; simp [modifyRuntime, modifyView, scope]
  · simp [modifyRuntime, modifyView, scope, hj]

theorem origin_modifyRuntime :
    (w.modifyRuntime i f).origin j =
      if j = i then ((f (w.views i).runtime).id, (f (w.views i).runtime).isSnapshot)
      else w.origin j := by
  by_cases hj : j = i
  · subst hj; simp [modifyRuntime, modifyView, origin]
  · simp [modifyRuntime, modifyView, origin, hj]

@[simp] theorem origin_updateQueryDeps (deps : List Dep) :
    (w.modifyRuntime i (·.updateQueryDeps k deps)).origin j = w.origin j := by
  rw [origin_modifyRuntime]
  split
  · next h => subst h; rfl
  · rfl

@[simp] theorem origin_bumpRevision :
    (w.modifyRuntime i (·.bumpRevision)).origin j = w.origin j := by
  rw [origin_modifyRuntime]
  split
  · next h => subst h; rfl
  · rfl

@[simp] theorem rev_updateQueryDeps (deps : List Dep) :
    (w.modifyRuntime i (·.updateQueryDeps k deps)).rev j = w.rev j := by
  rw [rev_modifyRuntime]
  split
  · next h => subst h; rfl
  · rfl

@[simp] theorem scope_updateQueryDeps (deps : List Dep) :
    (w.modifyRuntime i (·.updateQueryDeps k deps)).scope j = w.scope j := by
  rw [scope_modifyRuntime]
  split
  · next h => subst h; rfl
  · rfl

@[simp] theorem cell_markDivergent : (w.markDivergent i).cell j k = w.cell j k :=
  cell_modifyRuntime ..

@[simp] theorem inputs_markDivergent : (w.markDivergent i).inputs j = w.inputs j :=
  inputs_modifyRuntime ..

@[simp] theorem rev_markDivergent : (w.markDivergent i).rev j = w.rev j := by
  refine (rev_modifyRuntime ..).trans ?_
  split
  · next h => subst h; exact Runtime.currentRevision_markDivergent ..
  · rfl

@[simp] theorem origin_markDivergent : (w.markDivergent i).origin j = w.origin j := by
  refine (origin_modifyRuntime ..).trans ?_
  split
  · next h =>
    subst h
    exact congrArg₂ Prod.mk (Runtime.id_markDivergent _ w.nextRuntimeId)
      (Runtime.isSnapshot_markDivergent _ w.nextRuntimeId)
  · rfl

theorem scope_markDivergent_of_live (h : (w.views i).runtime.isSnapshot = false) :
    (w.markDivergent i).scope j = w.scope j := by
  refine (scope_modifyRuntime ..).trans ?_
  split
  · next hj =>
    subst hj
    exact congrArg Runtime.cacheScopeId (Runtime.markDivergent_of_live h w.nextRuntimeId)
  · rfl

@[simp] theorem cell_storeInput (v : Option V) (r : Revision) :
    (w.storeInput i k v r).cell j k' = w.cell j k' := by
  by_cases hj : j = i
  · subst hj; simp [storeInput, modifyView, cell]
  · simp [storeInput, modifyView, cell, Function.update_of_ne hj]

@[simp] theorem state_storeInput (v : Option V) (r : Revision) :
    (w.storeInput i k v r).state j k' = w.state j k' := by
  simp [state]

@[simp] theorem rev_storeInput (v : Option V) (r : Revision) :
    (w.storeInput i k v r).rev j = w.rev j := by
  by_cases hj : j = i
  · subst hj; simp [storeInput, modifyView, rev]
  · simp [storeInput, modifyView, rev, Function.update_of_ne hj]

@[simp] theorem scope_storeInput (v : Option V) (r : Revision) :
    (w.storeInput i k v r).scope j = w.scope j := by
  by_cases hj : j = i
  · subst hj; simp [storeInput, modifyView, scope]
  · simp [storeInput, modifyView, scope, Function.update_of_ne hj]

@[simp] theorem origin_storeInput (v : Option V) (r : Revision) :
    (w.storeInput i k v r).origin j = w.origin j := by
  by_cases hj : j = i
  · subst hj; simp [storeInput, modifyView, origin]
  · simp [storeInput, modifyView, origin, Function.update_of_ne hj]

theorem inputs_storeInput (v : Option V) (r : Revision) :
    (w.storeInput i k v r).inputs j =
      if j = i then (w.inputs i).store k v r else w.inputs j := by
  by_cases hj : j = i
  · subst hj; simp [storeInput, modifyView, inputs]
  · simp [storeInput, modifyView, inputs, hj]

theorem cell_snapshot : w.snapshot.cell j k =
    if j = w.viewCount then (w.cell 0 k).snapshot else w.cell j k := by
  by_cases hj : j = w.viewCount
  · subst hj; simp [snapshot, cell]
  · simp [snapshot, cell, hj]

theorem state_snapshot : w.snapshot.state j k =
    if j = w.viewCount then (w.cell 0 k).snapshot.state else w.state j k := by
  unfold state
  rw [cell_snapshot]
  split <;> rfl

theorem inputs_snapshot : w.snapshot.inputs j =
    if j = w.viewCount then w.inputs 0 else w.inputs j := by
  by_cases hj : j = w.viewCount
  · subst hj; simp [snapshot, inputs]
  · simp [snapshot, inputs, hj]

theorem rev_snapshot : w.snapshot.rev j = if j = w.viewCount then w.rev 0 else w.rev j := by
  by_cases hj : j = w.viewCount
  · subst hj; simp [snapshot, rev, Runtime.setCurrentRevision]
  · simp [snapshot, rev, hj]

theorem origin_snapshot : w.snapshot.origin j =
    if j = w.viewCount then ((w.origin 0).1, true) else w.origin j := by
  by_cases hj : j = w.viewCount
  · subst hj; simp [snapshot, origin, Runtime.setCurrentRevision, Runtime.newForSnapshot,
      Runtime.new]
  · simp [snapshot, origin, hj]

theorem scope_snapshot : w.snapshot.scope j =
    if j = w.viewCount then (w.origin 0).1 else w.scope j := by
  by_cases hj : j = w.viewCount
  · subst hj
    simp [snapshot, scope, origin, Runtime.setCurrentRevision, Runtime.newForSnapshot,
      Runtime.new, Runtime.cacheScopeId]
  · simp [snapshot, scope, hj]

theorem shared_putShared (s s' : RuntimeId) (r : SharedCacheRecord V) :
    (w.putShared s k r).shared s' k' = if s' = s ∧ k' = k then some r else w.shared s' k' := by
  by_cases hs : s' = s
  · subst hs
    by_cases hk : k' = k
    · subst hk; simp [putShared]
    · simp [putShared, hk]
  · simp [putShared, hs]

theorem shared_evictShared (s s' : RuntimeId) :
    (w.evictShared s k).shared s' k' = if s' = s ∧ k' = k then none else w.shared s' k' := by
  by_cases hs : s' = s
  · subst hs
    by_cases hk : k' = k
    · subst hk; simp [evictShared]
    · simp [evictShared, hk]
  · simp [evictShared, hs]

end frames

end World

end Picante

/-
# The runtime of one view

`Runtime` (`runtime.rs`) holds what a database or a snapshot keeps besides its ingredients: the
revision counter, the identity it shares with its family, the private scope a snapshot gets
once it is mutated, and the dependency graph in both directions.

The event and watch channels are left out: no operation here reads them.
-/
import Picante.Key
import Mathlib.Logic.Function.Basic

namespace Picante

/-- The state of a runtime.  `divergentScope = 0` means "not divergent"; the reverse graph is
the set of queries filed under each dependency. -/
structure Runtime where
  id : RuntimeId
  isSnapshot : Bool
  divergentScope : RuntimeId
  currentRevision : Revision
  depsByQuery : DynKey → Option (List Dep)
  reverseDeps : DynKey → DynKey → Bool

namespace Runtime

/-- A live runtime, at revision 0. -/
def new (id : RuntimeId) : Runtime :=
  { id, isSnapshot := false, divergentScope := 0, currentRevision := 0
    depsByQuery := fun _ => none, reverseDeps := fun _ _ => false }

/-- The runtime of a snapshot: its parent's identity, everything else its own. -/
def newForSnapshot (parentId : RuntimeId) : Runtime :=
  { new parentId with isSnapshot := true }

/-- The scope that keys the in-flight registry and the shared cache: the family id, or the
private id of a snapshot that was mutated. -/
def cacheScopeId (r : Runtime) : RuntimeId :=
  if r.divergentScope ≠ 0 then r.divergentScope else r.id

/-- Whether `markDivergent` takes a fresh id: on a snapshot, the first time. -/
def divergesNow (r : Runtime) : Bool := r.isSnapshot && r.divergentScope == 0

/-- Marks a snapshot's runtime as divergent, with the given fresh scope; a live runtime and a
snapshot that has diverged before are left as they are. -/
def markDivergent (r : Runtime) (fresh : RuntimeId) : Runtime :=
  if r.divergesNow then { r with divergentScope := fresh } else r

/-- Moves the runtime to its next revision. -/
def bumpRevision (r : Runtime) : Runtime := { r with currentRevision := r.currentRevision + 1 }

/-- Sets the revision (snapshot creation, cache loading). -/
def setCurrentRevision (r : Runtime) (rev : Revision) : Runtime := { r with currentRevision := rev }

/-- Forgets all dependencies (cache loading). -/
def clearDependencyGraph (r : Runtime) : Runtime :=
  { r with depsByQuery := fun _ => none, reverseDeps := fun _ _ => false }

/-- Replaces the dependency list of `query`, and files `query` under exactly the new
dependencies in the reverse graph. -/
def updateQueryDeps (r : Runtime) (query : DynKey) (deps : List Dep) : Runtime :=
  let old := (r.depsByQuery query).getD []
  { r with
    depsByQuery := Function.update r.depsByQuery query (some deps)
    reverseDeps := fun dep q =>
      if q = query then
        if dep ∈ deps then true
        else if dep ∈ old then false
        else r.reverseDeps dep q
      else r.reverseDeps dep q }

@[simp] theorem currentRevision_markDivergent (r : Runtime) (fresh : RuntimeId) :
    (r.markDivergent fresh).currentRevision = r.currentRevision := by
  unfold markDivergent; split <;> rfl

@[simp] theorem id_markDivergent (r : Runtime) (fresh : RuntimeId) :
    (r.markDivergent fresh).id = r.id := by
  unfold markDivergent; split <;> rfl

@[simp] theorem isSnapshot_markDivergent (r : Runtime) (fresh : RuntimeId) :
    (r.markDivergent fresh).isSnapshot = r.isSnapshot := by
  unfold markDivergent; split <;> rfl

@[simp] theorem currentRevision_updateQueryDeps (r : Runtime) (q : DynKey) (deps : List Dep) :
    (r.updateQueryDeps q deps).currentRevision = r.currentRevision := rfl

@[simp] theorem cacheScopeId_updateQueryDeps (r : Runtime) (q : DynKey) (deps : List Dep) :
    (r.updateQueryDeps q deps).cacheScopeId = r.cacheScopeId := rfl

@[simp] theorem cacheScopeId_bumpRevision (r : Runtime) :
    r.bumpRevision.cacheScopeId = r.cacheScopeId := rfl

@[simp] theorem currentRevision_bumpRevision (r : Runtime) :
    r.bumpRevision.currentRevision = r.currentRevision + 1 := rfl

/-- A live runtime never diverges. -/
theorem markDivergent_of_live {r : Runtime} (h : r.isSnapshot = false) (fresh : RuntimeId) :
    r.markDivergent fresh = r := by
  simp [markDivergent, divergesNow, h]

end Runtime

end Picante

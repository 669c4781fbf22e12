/-
# The in-flight registry and the shared cache

The process-wide tables of `inflight.rs`: the registry of computations under way, through
which accesses on several views share one computation, and the cache of completed results,
which outlives them.

Two fields are there for the proofs only, no operation reads them: whether a shared record is
another's than the database's own (`foreign`), and the view that leads an entry (`leader`).
-/
import Picante.Key
import Mathlib.Logic.Function.Basic

namespace Picante

variable {V : Type}

/-- Index of a view: 0 is the database, the others are its snapshots. -/
abbrev ViewId := Nat

/-- Index of an in-flight entry. -/
abbrev EntryId := Nat

/-- A completed result that other views of its scope can adopt.  It is `foreign` unless the
database computed it, and once a snapshot has stored it again. -/
structure SharedCacheRecord (V : Type) where
  value : V
  deps : List Dep
  changedAt : Revision
  verifiedAt : Revision
  foreign : Bool
  deriving DecidableEq, Repr

/-- Key of an in-flight computation: scope, revision, kind and key. -/
structure InFlightKey where
  runtimeId : RuntimeId
  revision : Revision
  query : DynKey
  deriving DecidableEq, Repr

/-- State of an in-flight computation. -/
inductive InFlightState (V : Type) where
  | running
  | done (value : V) (deps : List Dep) (changedAt : Revision)
  | failed (error : PicanteError)
  | cancelled
  deriving Repr

/-- An entry: its state, how often its waiters were notified, its key and its leader's view. -/
structure InFlightEntry (V : Type) where
  state : InFlightState V
  epoch : Nat
  key : InFlightKey
  leader : ViewId
  deriving Repr

/-- The guard a leader holds until it completes or fails its entry. -/
structure InFlightGuard where
  key : InFlightKey
  entry : EntryId
  deriving DecidableEq, Repr

/-- The registry: the entry filed under a key, all entries ever made, and the next one. -/
structure Registry (V : Type) where
  filed : InFlightKey → Option EntryId
  entries : EntryId → InFlightEntry V
  nextEntry : EntryId

namespace Registry

/-- No computation under way. -/
def empty : Registry V :=
  { filed := fun _ => none
    entries := fun _ => ⟨.cancelled, 0, ⟨0, 0, ⟨0, []⟩⟩, 0⟩
    nextEntry := 0 }

/-- Files a new running entry under a key (the leader's branch of `try_lead`). -/
def lead (r : Registry V) (key : InFlightKey) (leader : ViewId) : Registry V :=
  { filed := Function.update r.filed key (some r.nextEntry)
    entries := Function.update r.entries r.nextEntry ⟨.running, 0, key, leader⟩
    nextEntry := r.nextEntry + 1 }

/-- Sets the state of an entry. -/
def setState (r : Registry V) (e : EntryId) (state : InFlightState V) : Registry V :=
  { r with entries := Function.update r.entries e { r.entries e with state } }

/-- Wakes the waiters of an entry. -/
def notify (r : Registry V) (e : EntryId) : Registry V :=
  { r with
    entries := Function.update r.entries e { r.entries e with epoch := (r.entries e).epoch + 1 } }

/-- Removes the entry filed under a key. -/
def remove (r : Registry V) (key : InFlightKey) : Registry V :=
  { r with filed := Function.update r.filed key none }

/-- What dropping a live guard does: its entry is cancelled, waiters are woken, and the entry
is removed. -/
def cancel (r : Registry V) (g : InFlightGuard) : Registry V :=
  ((r.setState g.entry .cancelled).notify g.entry).remove g.key

end Registry

end Picante

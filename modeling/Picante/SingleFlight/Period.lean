/-
# A period of one revision

A period begins in some state of the system and lasts while accesses to one view, all started in
it, take their steps: the revision of the view stays what it is.  Whatever else is under way when
it begins -- a computation at an earlier revision, an access of another view -- takes no step.

Nothing makes a cell worse while a period lasts, so each key of the view passes through few stages
(`Stage`).  Its cell is kept as it was found, until one access starts on it; that access works
alone, adopts a shared record or leads a computation, and publishes one result.  Only where an
entry was filed for the key before the period do several accesses start, and then none of them
computes: all follow that entry.

* `Judged` -- the end of a revalidation, as the results seen so far decide it (`Judging`).
* `Stage.Holds` -- what is in the world for a key at a stage.
* `Stage.Fate` -- the only result that an access to the key still can return.
-/
import Mathlib.Data.Nat.Basic
import Picante.Judging.Basic
import Picante.Waiting

namespace Picante

open Config

variable {V : Type}

/-! ## 1. What is fixed -/

/-- The state in which the period begins, and the view. -/
structure Period (V : Type) where
  start : Config V
  view : ViewId

/-- The results that accesses have returned so far. -/
abbrev Seen (V : Type) := List (DynKey × AccessResult V)

namespace Period

variable (P : Period V)

/-- The revision of the view. -/
def rev : Revision := P.start.world.rev P.view

/-- The cache scope of the view. -/
def scope : RuntimeId := P.start.world.scope P.view

/-- What is found in the cell of a key. -/
def found (q : DynKey) : ErasedState V := P.start.world.state P.view q

/-- The key of the in-flight entry for a query. -/
def inFlight (q : DynKey) : InFlightKey := ⟨P.scope, P.rev, q⟩

/-- The first task of the period. -/
def firstTask : TaskId := P.start.taskCount

/-- The first entry that is made in the period. -/
def firstEntry : EntryId := P.start.world.registry.nextEntry

/-- An entry from before the period ended with this result. -/
def Outcome (e : EntryId) (r : AccessResult V) : Prop :=
  match (P.start.world.registry.entries e).state with
  | .done value _ changedAt => r = .ok (value, changedAt)
  | .failed err => r = .error err
  | _ => False

theorem Outcome.functional {P : Period V} {e : EntryId} {r r' : AccessResult V}
    (h : P.Outcome e r) (h' : P.Outcome e r') : r = r' := by
  unfold Outcome at h h'
  split at h <;> simp_all

end Period

/-- The state gives an access at revision `rev` this result. -/
def ErasedState.Settles (rev : Revision) : ErasedState V → AccessResult V → Prop
  | .ready x, r => x.verifiedAt = rev ∧ r = .ok (x.value, x.changedAt)
  | .poisoned e verifiedAt, r => verifiedAt = rev ∧ r = .error e
  | _, _ => False

theorem ErasedState.Settles.functional {rev : Revision} {st : ErasedState V}
    {r r' : AccessResult V} (h : st.Settles rev r) (h' : st.Settles rev r') : r = r' := by
  cases st with
  | ready x => exact h.2.trans h'.2.symm
  | poisoned e ver => exact h.2.trans h'.2.symm
  | vacant | running s o => exact h.elim

/-- What the period leaves as it is: the slots, the interned values, the revision, and the entries
from before it. -/
structure Period.Keeps (P : Period V) (w : World V) : Prop where
  fixed : P.start.world.Fixed w
  entries : ∀ e, e < P.firstEntry →
    (w.registry.entries e).state = (P.start.world.registry.entries e).state
  next : P.firstEntry ≤ w.registry.nextEntry

/-- For the keys other than `q`, nothing in the view changes. -/
structure Period.Frame (P : Period V) (q : DynKey) (w w' : World V) : Prop where
  state : ∀ k, k ≠ q → w'.state P.view k = w.state P.view k
  shared : ∀ k, k ≠ q → w'.shared P.scope k = w.shared P.scope k
  filed : ∀ k, k ≠ q → w'.registry.filed (P.inFlight k) = w.registry.filed (P.inFlight k)

/-! ## 2. Revalidations -/

section judged

variable (S : Schema V) (P : Period V) (seen : Seen V)

/-- What touching `d` answers: inputs and interned values do not change, and a derived query
answers what an access to it has returned. -/
inductive Period.Answers (d : Dep) : PicanteResult Revision → Prop
  | input (hk : S.sectionType d.kind = .input) :
      Answers d (.ok ((P.start.world.inputs P.view).touch d))
  | interned {v : V} (hk : S.sectionType d.kind = .interned)
      (hv : P.start.world.internedAt S d = some v) : Answers d (.ok 0)
  | missing (hk : S.sectionType d.kind = .interned) (hv : P.start.world.internedAt S d = none) :
      Answers d (.error (World.missingInterned S d))
  | derived {r : AccessResult V} (hk : S.sectionType d.kind = .derived) (hr : (d, r) ∈ seen) :
      Answers d (r.map (·.2))

/-- A revalidation of these dependencies, for a record with this `changed_at`, ends so. -/
def Period.Judged (deps : List Dep) (changedAt : Revision) (j : PicanteResult Bool) : Prop :=
  Judging.Judged (fun d => S.registered d.kind = true) (P.Answers S seen) changedAt deps j

/-- A revalidation has passed the dependencies before `rest`. -/
def Period.Passed (deps : List Dep) (changedAt : Revision) (rest : List Dep) : Prop :=
  Judging.Passed (fun d => S.registered d.kind = true) (P.Answers S seen) changedAt deps rest

/-- The cell holds a record of an earlier revision. -/
def Period.Stale (q : DynKey) (x : ReadyRecord V) : Prop :=
  P.found q = .ready x ∧ x.verifiedAt ≠ P.rev

/-- An access may start on the cell: it holds no record, or one that is refused. -/
inductive Period.Startable (q : DynKey) : Prop
  | vacant (h : P.found q = .vacant)
  | poisoned {e : PicanteError} {ver : Revision} (h : P.found q = .poisoned e ver)
      (hver : ver ≠ P.rev)
  | refused {x : ReadyRecord V} (h : P.Stale q x)
      (hj : P.Judged S seen x.deps x.changedAt (.ok false))

/-- What the cell as it was found leads to. -/
inductive Period.Kept (q : DynKey) : AccessResult V → Prop
  | settled {r : AccessResult V} (h : (P.found q).Settles P.rev r) : Kept q r
  | accepted {x : ReadyRecord V} (h : P.Stale q x)
      (hj : P.Judged S seen x.deps x.changedAt (.ok true)) : Kept q (.ok (x.value, x.changedAt))
  | failed {x : ReadyRecord V} {e : PicanteError} (h : P.Stale q x)
      (hj : P.Judged S seen x.deps x.changedAt (.error e)) : Kept q (.error e)

/-- A shared record that is looked at and not used. -/
def Period.Refused (F : SharedCacheRecord V) : Prop :=
  F.verifiedAt ≠ P.rev ∧ P.Judged S seen F.deps F.changedAt (.ok false)

end judged

section judgedLemmas

variable {S : Schema V} {P : Period V} {seen seen' : Seen V} {q : DynKey}

/-- No two accesses to a key have returned different results. -/
def Seen.Agree (seen : Seen V) : Prop := ∀ q r r', (q, r) ∈ seen → (q, r') ∈ seen → r = r'

theorem Period.Answers.functional (hagree : seen.Agree) {d : Dep} {x y : PicanteResult Revision}
    (hx : P.Answers S seen d x) (hy : P.Answers S seen d y) : x = y := by
  cases hx with
  | input hk =>
    cases hy with
    | input _ => rfl
    | interned hk' _ | missing hk' _ | derived hk' _ => rw [hk] at hk'; cases hk'
  | interned hk hv =>
    cases hy with
    | input hk' | derived hk' _ => rw [hk] at hk'; cases hk'
    | interned _ _ => rfl
    | missing _ hv' => rw [hv] at hv'; cases hv'
  | missing hk hv =>
    cases hy with
    | input hk' | derived hk' _ => rw [hk] at hk'; cases hk'
    | interned _ hv' => rw [hv] at hv'; cases hv'
    | missing _ _ => rfl
  | derived hk hr =>
    cases hy with
    | input hk' | interned hk' _ | missing hk' _ => rw [hk] at hk'; cases hk'
    | derived _ hr' => rw [hagree _ _ _ hr hr']

theorem Period.Answers.mono (hseen : seen ⊆ seen') {d : Dep} {x : PicanteResult Revision}
    (h : P.Answers S seen d x) : P.Answers S seen' d x := by
  cases h with
  | input hk => exact .input hk
  | interned hk hv => exact .interned hk hv
  | missing hk hv => exact .missing hk hv
  | derived hk hr => exact .derived hk (hseen hr)

theorem Period.Judged.functional (hagree : seen.Agree) {deps : List Dep} {ch : Revision}
    {j j' : PicanteResult Bool} (h : P.Judged S seen deps ch j)
    (h' : P.Judged S seen deps ch j') : j = j' := by
  have hans : ∀ d x y, P.Answers S seen d x → P.Answers S seen d y → x = y :=
    fun _ _ _ => Period.Answers.functional hagree
  exact Judging.Judged.functional hans h h'

theorem Period.Judged.mono (hseen : seen ⊆ seen') {deps : List Dep} {ch : Revision}
    {j : PicanteResult Bool} (h : P.Judged S seen deps ch j) : P.Judged S seen' deps ch j :=
  Judging.Judged.mono (fun _ _ => Period.Answers.mono hseen) h

theorem Period.Passed.mono (hseen : seen ⊆ seen') {deps rest : List Dep} {ch : Revision}
    (h : P.Passed S seen deps ch rest) : P.Passed S seen' deps ch rest :=
  Judging.Passed.mono (fun _ _ => Period.Answers.mono hseen) h

theorem Period.Stale.functional {x y : ReadyRecord V} (h : P.Stale q x) (h' : P.Stale q y) :
    x = y := by
  have heq := h.1.symm.trans h'.1
  cases heq
  rfl

theorem Period.Startable.mono (hseen : seen ⊆ seen') (h : P.Startable S seen q) :
    P.Startable S seen' q := by
  cases h with
  | vacant h => exact .vacant h
  | poisoned h hver => exact .poisoned h hver
  | refused h hj => exact .refused h (hj.mono hseen)

theorem Period.Kept.mono (hseen : seen ⊆ seen') {r : AccessResult V} (h : P.Kept S seen q r) :
    P.Kept S seen' q r := by
  cases h with
  | settled h => exact .settled h
  | accepted h hj => exact .accepted h (hj.mono hseen)
  | failed h hj => exact .failed h (hj.mono hseen)

/-- A record that an access may start on is not accepted, and its revalidation does not fail. -/
theorem Period.Startable.judged (hagree : seen.Agree) (h : P.Startable S seen q)
    {x : ReadyRecord V} (hx : P.Stale q x) {j : PicanteResult Bool}
    (hj : P.Judged S seen x.deps x.changedAt j) : j = .ok false := by
  cases h with
  | vacant h => cases h.symm.trans hx.1
  | poisoned h _ => cases h.symm.trans hx.1
  | refused h hj' =>
    cases h.functional hx
    exact hj.functional hagree hj'

/-- No access starts on a cell that gives a result. -/
theorem Period.Startable.not_kept (hagree : seen.Agree) (h : P.Startable S seen q)
    {r : AccessResult V} (hr : P.Kept S seen q r) : False := by
  cases hr with
  | settled hs =>
    cases h with
    | vacant h => rw [h] at hs; exact hs
    | poisoned h hver => rw [h] at hs; exact hver hs.1
    | refused h _ => rw [h.1] at hs; exact h.2 hs.1
  | accepted hx hj => cases h.judged hagree hx hj
  | failed hx hj => cases h.judged hagree hx hj

theorem Period.Kept.functional (hagree : seen.Agree) {r r' : AccessResult V}
    (h : P.Kept S seen q r) (h' : P.Kept S seen q r') : r = r' := by
  cases h with
  | settled hs =>
    cases h' with
    | settled hs' => exact hs.functional hs'
    | accepted hx _ | failed hx _ => rw [hx.1] at hs; exact absurd hs.1 hx.2
  | accepted hx hj =>
    cases h' with
    | settled hs => rw [hx.1] at hs; exact absurd hs.1 hx.2
    | accepted hx' _ => rw [hx.functional hx']
    | failed hx' hj' =>
      cases hx.functional hx'
      cases hj.functional hagree hj'
  | failed hx hj =>
    cases h' with
    | settled hs => rw [hx.1] at hs; exact absurd hs.1 hx.2
    | accepted hx' hj' | failed hx' hj' =>
      cases hx.functional hx'
      cases hj.functional hagree hj'
      try rfl

end judgedLemmas

/-! ## 3. Stages -/

/-- How far the access is that works for a key: about to look into the shared cache, checking the
record found there, past it, or computing. -/
inductive Progress (V : Type) where
  | looking
  | checking (F : SharedCacheRecord V)
  | missed
  | computing

/-- Where a key of the view is in the period. -/
inductive Stage (V : Type) where
  /-- no access has started on its cell -/
  | kept
  /-- the access at depth `d` of task `t` works for it -/
  | working (t : TaskId) (d : Nat) (p : Progress V)
  /-- its result is known -/
  | decided (r : AccessResult V)
  /-- accesses follow an entry from before the period -/
  | following (e : EntryId)

/-- The cell is running, for whomever. -/
def ErasedState.IsRunning (st : ErasedState V) : Prop := ∃ started o, st = .running started o

section stage

variable (S : Schema V) (P : Period V) (starts : List DynKey) (seen : Seen V) (w : World V)
  (q : DynKey)

/-- No compute function has been called for `q`, and no entry has been filed for it or removed. -/
def Period.Fresh : Prop :=
  q ∉ starts ∧
    w.registry.filed (P.inFlight q) = P.start.world.registry.filed (P.inFlight q)

/-- What an access that works for `q` has left in the world so far. -/
def Progress.Holds : Progress V → Prop
  | .looking => P.Fresh starts w q
  | .checking F =>
    P.Fresh starts w q ∧ w.shared P.scope q = some F ∧ F.verifiedAt ≠ P.rev
  | .missed =>
    P.Fresh starts w q ∧ ∀ F, w.shared P.scope q = some F → P.Refused S seen F
  | .computing => True

/-- What is in the world for `q` at a stage. -/
def Stage.Holds : Stage V → Prop
  | .kept =>
    P.Fresh starts w q ∧
      (w.state P.view q = P.found q ∨
        ∃ x, P.Stale q x ∧ P.Judged S seen x.deps x.changedAt (.ok true) ∧
          w.state P.view q = .ready { x with verifiedAt := P.rev })
  | .working _ _ p =>
    P.Startable S seen q ∧ (w.state P.view q).IsRunning ∧ p.Holds S P starts seen w q
  | .decided r =>
    P.Startable S seen q ∧
      ((w.state P.view q).IsRunning ∨ (w.state P.view q).Settles P.rev r)
  | .following e =>
    P.Startable S seen q ∧ (q ∉ starts ∧ w.registry.filed (P.inFlight q) = some e) ∧
      e < P.firstEntry ∧
      (w.state P.view q = .vacant ∨ (w.state P.view q).IsRunning ∨
        ∃ r, P.Outcome e r ∧ (w.state P.view q).Settles P.rev r) ∧
      ∀ F, w.shared P.scope q = some F →
        P.Refused S seen F ∨ F.verifiedAt = P.rev ∧ P.Outcome e (.ok (F.value, F.changedAt))

/-- The result that an access to `q` returns, if it returns. -/
def Stage.Fate (r : AccessResult V) : Stage V → Prop
  | .kept => P.Kept S seen q r
  | .working .. => False
  | .decided r' => r = r'
  | .following e => P.Outcome e r

end stage

/-! ## 4. Accesses -/

/-- The derived query that the next step of the access asks for, if it asks for one. -/
def Activation.asks (S : Schema V) (a : Activation V) : Option DynKey :=
  match a.pc with
  | .revalidate _ (dep :: _) =>
    if S.registered dep.kind ∧ S.sectionType dep.kind = .derived then some dep else none
  | .computing _ (.read k _) _ => if S.sectionType k.kind = .derived then some k else none
  | _ => none

/-- The query whose compute function the next step of the access calls, if it calls one. -/
def Activation.started (w : World V) (view : ViewId) (a : Activation V) : List DynKey :=
  match a.pc with
  | .lead _ =>
    if w.registry.filed ⟨w.scope view, a.rev, a.key⟩ = none then [a.key] else []
  | _ => []

section accesses

variable (S : Schema V) (P : Period V) (seen : Seen V) (s : Stage V) (t : TaskId) (d : Nat)
  (q : DynKey)

/-- The operation publishes the result `r`. -/
def MicroOp.Says (r : AccessResult V) : MicroOp V → Prop
  | .setCell st => st.Settles P.rev r
  | .putShared F => F.verifiedAt = P.rev ∧ r = .ok (F.value, F.changedAt)
  | .checked r' => r' = r
  | .raise e => r = .error e
  | _ => True

/-- The operation stores something for the key. -/
def MicroOp.stores : MicroOp V → Bool
  | .setCell _ | .putShared _ => true
  | _ => false

/-- The result is about to be stored in the cell. -/
def Unpublished : List (MicroOp V) → Prop
  | .updateDeps _ :: .setCell _ :: _ => True
  | .setCell _ :: _ => True
  | _ => False

/-- What is revalidated is the record of the cell, or a shared one. -/
def Source.Ok : Source V → Prop
  | .cell deps changedAt _ => ∃ x, P.Stale q x ∧ x.deps = deps ∧ x.changedAt = changedAt
  | .shared F _ =>
    s = .working t d (.checking F) ∨ ∃ e, s = .following e ∧ P.Refused S seen F

/-- What is known of an access to `q` that runs at depth `d` of task `t`. -/
def Pc.Ok : Pc V → Prop
  | .top | .listen | .observe _ | .parked _ => True
  | .revalidate src rest => src.Ok S P seen s t d q ∧ P.Passed S seen src.deps src.changedAt rest
  | .touching src dep rest =>
    src.Ok S P seen s t d q ∧ P.Passed S seen src.deps src.changedAt (dep :: rest) ∧
      S.registered dep.kind = true ∧ S.sectionType dep.kind = .derived
  | .reverify => ∃ x, P.Stale q x ∧ P.Judged S seen x.deps x.changedAt (.ok true)
  | .attempt => P.Startable S seen q
  | .sharedGet _ => s = .working t d .looking ∨ ∃ e, s = .following e
  | .lead _ => s = .working t d .missed ∨ ∃ e, s = .following e
  | .followReset e | .followListen e | .followRead e _ | .followParked e _ => s = .following e
  | .computing .. | .reading .. => s = .working t d .computing
  | .finishing ops =>
    ∃ r, (∀ op ∈ ops, op.Says P r) ∧ (s = .kept → ∀ op ∈ ops, op.stores = false) ∧
      (s.Fate S P seen q r ∨ (∃ p, s = .working t d p) ∧ Unpublished ops)

/-- An access runs at the revision of the period, and holds a guard for an entry of the period
only. -/
structure Activation.Ok (starts : List DynKey) (a : Activation V) : Prop where
  rev : a.pc ≠ .top → a.rev = P.rev
  guard : ∀ g, a.guard = some g →
    g.key = P.inFlight a.key ∧ P.firstEntry ≤ g.entry ∧ a.key ∈ starts
  pc : a.pc.Ok S P seen s t d a.key

end accesses

end Picante

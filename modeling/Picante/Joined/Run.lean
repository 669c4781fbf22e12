/-
# What is recorded for computations that join their reads

The dependencies that are stored with a value are those its computation has read, and no access to
an acyclic set of queries fails with a cycle error, in every run whose steps are in turn
(`joined_reads_are_recorded`).  The frame stack does nothing to bring that about: while two reads
are joined, whatever one of them pushes is on top for the other (`sibling_frame_on_top`).

* `System.finished`, `System.strikes` -- what a step shows: the computation that ends, and the key
  for which a cycle error is raised.
* `System.InTurn` -- the condition on the steps.
-/
import Picante.Joined.Step

namespace Picante.Joined

open Config Relation

variable {V : Type}

/-! ## 1. What a run shows -/

/-- A computation that has ended: its query, the keys it has read, the dependencies that were
recorded for it, and its outcome. -/
structure Finished (V : Type) where
  key : DynKey
  reads : List DynKey
  deps : List Dep
  out : PicanteResult V

namespace System

/-- The computation that ends with the step. -/
def finished (c : System V) : Label V → List (Finished V)
  | .step t id [] =>
    match (c.tasks t).calls id with
    | none => []
    | some call =>
      match call.act.pc, call.future, call.frame with
      | .computing .., .run (.done out), some f =>
        [⟨call.act.key, call.reads, ((c.tasks t).frames f).deps, out⟩]
      | _, _, _ => []
  | _ => []

/-- The key for which the step raises a cycle error.  There is no other source of them. -/
def strikes (S : Schema V) (c : System V) : Label V → List DynKey
  | .step t id path =>
    match (c.tasks t).calls id with
    | none => []
    | some call =>
      ((call.checks S path).filter fun d => ((c.tasks t).findCycle d).isSome).toList
  | _ => []

/-- With the next step a computation of `q` reads the derived key `d`. -/
def Calls (S : Schema V) (c : System V) (l : Label V) (q d : DynKey) : Prop :=
  ∃ t id path call, l = .step t id path ∧ (c.tasks t).calls id = some call ∧ call.act.key = q ∧
    call.asks path = some d ∧ S.sectionType d.kind = .derived

/-- The call that takes the step is in turn. -/
def InTurn (S : Schema V) (c : System V) (l : Label V) : Prop :=
  ∀ t id path call, l = .step t id path → (c.tasks t).calls id = some call →
    (c.tasks t).InTurn S id call path

end System

/-- The dependencies of every computation that has ended in the run are what it has read, those of a
ready cell are what the computation of its value has read, and no cycle error has been raised. -/
structure Recorded [DecidableEq V] (S : Schema V) (body : Nat → DynKey → Body V)
    (ls : List (Label V)) (c : System V) : Prop where
  finished : ∀ x ∈ Trans.shown (System.step S body) System.finished .init ls, x.deps = x.reads
  cells : ∀ i q r, c.world.state i q = .ready r →
    ∃ x ∈ Trans.shown (System.step S body) System.finished .init ls,
      x.key = q ∧ x.out = .ok r.value ∧ x.reads = r.deps
  strikes : Trans.shown (System.step S body) (System.strikes S) .init ls = []

/-! ## 2. Runs in turn -/

/-- A computation of `q` has ended with `v` after reading `deps`. -/
def Published (fin : List (Finished V)) (q : DynKey) (v : V) (deps : List Dep) : Prop :=
  ∃ x ∈ fin, x.key = q ∧ x.out = .ok v ∧ x.reads = deps

/-- The state after a run in turn in which the computations `fin` have ended. -/
structure System.Ok (S : Schema V) (E : DynKey → DynKey → Prop) (fin : List (Finished V))
    (c : System V) : Prop where
  finished : ∀ x ∈ fin, x.deps = x.reads ∧ Traces S E x.key x.reads
  world : c.world.Stores (Published fin)
  tasks : ∀ t, (c.tasks t).Ok S E (Published fin) c.world.registry

variable {S : Schema V} {E : DynKey → DynKey → Prop} {fin fin' : List (Finished V)}
  {c c' : System V} {l : Label V}

theorem Published.mono (h : fin ⊆ fin') (q : DynKey) (v : V) (deps : List Dep)
    (hv : Published fin q v deps) : Published fin' q v deps := by
  obtain ⟨x, hx, hp⟩ := hv
  exact ⟨x, h hx, hp⟩

theorem ok_blank (R : Registry V) (Good : DynKey → V → List Dep → Prop) :
    (Task.blank : Task V).Ok S E Good R where
  calls _ _ h := by cases h
  apart _ _ _ _ _ h := by cases h
  parents _ _ _ _ h := by cases h

theorem ok_spawned (view : ViewId) (key : DynKey) (R : Registry V)
    (Good : DynKey → V → List Dep → Prop) : (Task.spawned view key).Ok S E Good R := by
  have hcalls : ∀ id call, (Task.spawned view key : Task V).calls id = some call →
      id = 0 ∧ call = .enter key none := by
    intro id call hcall
    have hcall' : Function.update (fun _ : CallId => (none : Option (Call V))) 0
        (some (.enter key none)) id = some call := hcall
    rw [Function.update_apply] at hcall'
    split at hcall'
    · next hid => exact ⟨hid, (Option.some.inj hcall').symm⟩
    · cases hcall'
  refine ⟨fun id call hcall => ?_, fun id id' call call' f hcall hcall' hf => ?_,
    fun id call pid path hcall hpar => ?_⟩ <;> obtain ⟨rfl, rfl⟩ := hcalls _ _ hcall
  · refine ⟨Nat.zero_lt_one, ⟨trivial, ?_⟩, traced_enter R key, ?_, ?_⟩
    · exact fun g hg => by cases hg
    · exact fun f hf => by cases hf
    · exact fun hpc => by cases hpc
  · cases hf
  · cases hpar

theorem ok_init : (System.init : System V).Ok S E [] where
  finished _ h := absurd h List.not_mem_nil
  world := stores_init
  tasks _ := ok_blank ..

/-- A computation that ends has a frame, with what it has read. -/
theorem System.Ok.ends (h : c.Ok S E fin) {t : TaskId} {id : CallId} {call : Call V}
    {prev : Previous V} {prog : Query V} {deps : List Dep} {out : PicanteResult V}
    (hcall : (c.tasks t).calls id = some call) (hpc : call.act.pc = .computing prev prog deps)
    (hout : call.future = .run (.done out)) :
    c.finished (.step t id []) = [⟨call.act.key, call.reads, call.reads, out⟩] := by
  obtain ⟨⟨f, hf, hdeps⟩, -⟩ := ((h.tasks t).calls id call hcall).2.computes (by rw [hpc]; rfl)
  simp only [System.finished, hcall, hpc, hout, hf, hdeps]

/-- The computations that end with a step have recorded what they have read. -/
theorem System.Ok.finished_step (h : c.Ok S E fin) :
    ∀ x ∈ c.finished l, x.deps = x.reads ∧ Traces S E x.key x.reads := by
  intro x hx
  unfold System.finished at hx
  split at hx
  · next t id =>
    split at hx
    · cases hx
    · next call hcall =>
      split at hx
      · next prev prog deps out f hpc hout hf =>
        obtain rfl := List.mem_singleton.mp hx
        obtain ⟨⟨f', hf', hdeps⟩, htraces⟩ :=
          ((h.tasks t).calls id call hcall).2.computes (by rw [hpc]; rfl)
        obtain rfl := Option.some.inj (hf.symm.trans hf')
        exact ⟨hdeps, htraces⟩
      · cases hx
  · cases hx

section runs

variable [DecidableEq V] {body : Nat → DynKey → Body V}

omit [DecidableEq V] in
/-- Another world with the same records, and the same tasks. -/
theorem System.Ok.framed {w : World V} (h : c.Ok S E fin) (hw : w.Stores (Published fin))
    (hregistry : w.registry = c.world.registry) :
    ({ c with world := w } : System V).Ok S E (fin ++ []) := by
  rw [List.append_nil]
  exact ⟨h.finished, hw, fun t => hregistry ▸ h.tasks t⟩

/-- **What a step in turn preserves.** -/
theorem System.Ok.step (hE : ∀ k, ¬ TransGen E k k) (h : c.Ok S E fin)
    (hs : System.step S body c l = some c') (hturn : c.InTurn S l)
    (hcalls : ∀ q d, c.Calls S l q d → E q d) : c'.Ok S E (fin ++ c.finished l) := by
  cases l with
  | spawn view key =>
    simp only [System.step] at hs
    split at hs <;> cases hs
    refine ⟨by simpa [System.finished] using h.finished, ?_, fun t => ?_⟩
    · simpa [System.finished] using h.world
    · by_cases ht : t = c.taskCount
      · subst ht
        simpa [System.finished] using ok_spawned ..
      · simpa [System.finished, Function.update_of_ne ht] using h.tasks t
  | step t id path =>
    simp only [System.step] at hs
    split at hs
    · cases hs
    · next w T hstep =>
      cases hs
      obtain ⟨call, hcall, hstep⟩ := taskStep_of_step hstep
      have hmono := Published.mono (List.subset_append_left fin (c.finished (.step t id path)))
      have hfin : ∀ x ∈ fin ++ c.finished (.step t id path),
          x.deps = x.reads ∧ Traces S E x.key x.reads := by
        intro x hx
        rcases List.mem_append.mp hx with hx | hx
        · exact h.finished x hx
        · exact h.finished_step x hx
      have hgood : ∀ q v deps, Published (fin ++ c.finished (.step t id path)) q v deps →
          Traces S E q deps := by
        rintro q v deps ⟨x, hx, rfl, -, rfl⟩
        exact (hfin x hx).2
      have hfinal : ∀ prev prog deps v, call.act.pc = .computing prev prog deps → path = [] →
          call.future = .run (.done (.ok v)) →
            Published (fin ++ c.finished (.step t id path)) call.act.key v call.reads := by
        rintro prev prog deps v hpc rfl hout
        rw [h.ends hcall hpc hout]
        exact ⟨_, List.mem_append_right _ (List.mem_singleton_self _), rfl, rfl, rfl⟩
      obtain ⟨hworld, hext, hT⟩ := ((h.tasks t).mono hmono (.refl _)).step hE hgood
        (h.world.imp hmono) hcall (hturn t id path call rfl hcall)
        (fun d hasks hk => hcalls _ _ ⟨t, id, path, call, rfl, hcall, rfl, hasks, hk⟩)
        hfinal hstep
      refine ⟨hfin, hworld, fun t' => ?_⟩
      by_cases ht : t' = t
      · subst ht
        simpa using hT
      · simpa [Function.update_of_ne ht] using (h.tasks t').mono hmono hext
  | mutate view key value =>
    simp only [System.step] at hs
    split at hs <;> cases hs
    exact h.framed (h.world.mutate key value) (by unfold mutateWorld; split <;> rfl)
  | intern kind value =>
    cases hs
    exact h.framed ⟨h.world.cells, h.world.shared, h.world.registry⟩ rfl
  | bump view =>
    simp only [System.step] at hs
    split at hs <;> cases hs
    exact h.framed (h.world.bump view) rfl
  | snapshot =>
    cases hs
    exact h.framed h.world.snapshot rfl

omit [DecidableEq V] in
/-- A step in turn raises no cycle error. -/
theorem System.Ok.strikes (hE : ∀ k, ¬ TransGen E k k) (h : c.Ok S E fin) (hturn : c.InTurn S l)
    (hcalls : ∀ q d, c.Calls S l q d → E q d) : c.strikes S l = [] := by
  unfold System.strikes
  split
  · next t id path =>
    split
    · rfl
    · next call hcall =>
      cases hchecks : call.checks S path with
      | none => rfl
      | some d =>
        have hcalled := ((h.tasks t).calls id call hcall).2.calls hchecks fun hasks hk =>
          hcalls _ _ ⟨t, id, path, call, rfl, hcall, rfl, hasks, hk⟩
        have hnone := (h.tasks t).findCycle hE hcall (hturn t id path call rfl hcall) hchecks
          hcalled
        simp [Option.filter, hnone]
  · rfl

/-- **What is recorded in a run whose steps are in turn.** -/
theorem joined_reads_are_recorded {ls : List (Label V)} (hE : ∀ k, ¬ TransGen E k k)
    (hrun : Trans.Steps (System.step S body)
      (fun m l _ => m.InTurn S l ∧ ∀ q d, m.Calls S l q d → E q d) .init ls c) :
    Recorded S body ls c := by
  have hok : c.Ok S E (Trans.shown (System.step S body) System.finished .init ls) ∧
      Trans.shown (System.step S body) (System.strikes S) .init ls = [] := by
    induction hrun with
    | nil => exact ⟨ok_init, rfl⟩
    | snoc hls hl hok ih =>
      rw [hls.shown_snoc hl, hls.shown_snoc hl, ih.2, ih.1.strikes hE hok.1 hok.2]
      exact ⟨ih.1.step hE hl hok.1 hok.2, rfl⟩
  exact ⟨fun x hx => (hok.1.finished x hx).1, hok.1.world.cells, hok.2⟩

end runs

/-! ## 3. Two reads at once -/

namespace Siblings

open Cancellation (x schema)

def whole : DynKey := ⟨1, []⟩
def part : DynKey := ⟨1, [1]⟩
def leaf : DynKey := ⟨1, [2]⟩

/-- Passes the value on that is read. -/
def get (d : DynKey) : Body Nat :=
  .read d fun
    | .ok v => .done (.ok (v.getD 0))
    | .error e => .done (.error e)

/-- The sum of two values, or the first error. -/
def sum : PicanteResult Nat → PicanteResult Nat → PicanteResult Nat
  | .ok m, .ok n => .ok (m + n)
  | .ok _, .error e => .error e
  | .error e, _ => .error e

/-- `whole` reads `leaf` and `part` at once, `part` reads `leaf`, and `leaf`, which suspends itself
first, reads `x`. -/
def body (_ : Nat) (q : DynKey) : Body Nat :=
  if q = whole then .join (get leaf) (get part) fun l r => .done (sum l r)
  else if q = part then get leaf
  else .pause (get x)

/-- How far up a query is. -/
def rank (q : DynKey) : Nat := if q = whole then 2 else if q = part then 1 else 0

def Below (q d : DynKey) : Prop := rank d < rank q

instance (q d : DynKey) : Decidable (Below q d) := inferInstanceAs (Decidable (_ < _))

/-- The next steps of a call of task 0. -/
def go (id n : Nat) : List (Label Nat) := List.replicate n (.step 0 id [])

/-- `whole` is about to read its keys. -/
def joined : List (Label Nat) := [.mutate 0 x (some 1), .spawn 0 whole] ++ go 0 7

/-- `part` is read while `leaf` is suspended. -/
def overlapping : List (Label Nat) :=
  joined ++ [.step 0 0 [false]] ++ go 1 6 ++ [.step 0 0 [true]] ++ go 2 14 ++ go 1 11 ++ go 0 8

/-- The next steps of task 1, which accesses `leaf`. -/
def goOther (n : Nat) : List (Label Nat) := List.replicate n (.step 1 0 [])

/-- Task 1 computes `leaf`, and the three reads of task 0 are under way: those of `leaf` are parked,
without a frame. -/
def waiting : List (Label Nat) :=
  [.mutate 0 x (some 1), .spawn 0 whole, .spawn 0 leaf] ++ goOther 6 ++ go 0 7 ++
    [.step 0 0 [false]] ++ go 1 3 ++ [.step 0 0 [true]] ++ go 2 7 ++ go 3 3

/-- Task 1 publishes `leaf`, and the reads return. -/
def returning : List (Label Nat) := goOther 11 ++ go 1 5 ++ go 3 5 ++ go 2 9 ++ go 0 10

/-- If a computation reads a derived key, that is further down. -/
def descends (c : System Nat) : Label Nat → Bool
  | .step t id path =>
    ((c.tasks t).calls id).all fun call => (call.asks path).all fun d =>
      schema.sectionType d.kind != .derived || decide (Below call.act.key d)
  | _ => true

/-- The frame on top is that of the call, if it records a read, and no frame is for a key that is
checked for a cycle. -/
def turns (c : System Nat) : Label Nat → Bool
  | .step t id path =>
    ((c.tasks t).calls id).all fun call =>
      ((call.asks path).isNone || (c.tasks t).stack.head? == call.frame) &&
        (call.checks schema path).all fun d => ((c.tasks t).findCycle d).isNone
  | _ => true

theorem acyclic_below (q : DynKey) : ¬ TransGen Below q q := by
  have hdown : ∀ {p d}, TransGen Below p d → rank d < rank p := by
    intro p d h
    induction h with
    | single h => exact h
    | tail _ h ih => exact Nat.lt_trans h ih
  exact fun h => Nat.lt_irrefl _ (hdown h)

theorem below_of_descends {c : System Nat} {l : Label Nat} (h : descends c l = true)
    {q d : DynKey} (hcalls : c.Calls schema l q d) : Below q d := by
  obtain ⟨t, id, path, call, rfl, hcall, rfl, hasks, hk⟩ := hcalls
  simpa [descends, hcall, hasks, hk] using h

theorem inTurn_of_turns {c : System Nat} {l : Label Nat} (h : turns c l = true) :
    c.InTurn schema l := by
  rintro t id path call rfl hcall
  simp only [turns, hcall, Option.all_some, Bool.and_eq_true] at h
  refine ⟨fun d hasks => ?_, fun d hchecks f hf hkey => ?_⟩
  · simpa [hasks] using h.1
  · have hnone := h.2
    rw [hchecks, Option.all_some, Option.isNone_iff_eq_none] at hnone
    unfold Task.findCycle at hnone
    have hmem : d ∈ (c.tasks t).stack.map fun f => ((c.tasks t).frames f).key :=
      List.mem_map.mpr ⟨f, hf, hkey⟩
    rw [if_pos hmem] at hnone
    cases hnone

end Siblings

open Siblings in
open Cancellation (schema) in
/-- **Two reads at once**: `leaf` is suspended with its frame on top when `whole` reads `part`,
which is recorded for `leaf`; and `part` finds a frame for `leaf`, in which it is not nested. -/
theorem sibling_frame_on_top :
    ¬ ∀ (E : DynKey → DynKey → Prop) (ls : List (Label Nat)) (c : System Nat),
      (∀ q, ¬ TransGen E q q) →
      Trans.Steps (System.step schema body)
        (fun m l _ => m.polls l ∧ ∀ q d, m.Calls schema l q d → E q d) .init ls c →
      Recorded schema body ls c := by
  intro h
  have hrun : (Trans.run (fun c l => if c.polls l && descends c l then System.step schema body c l
      else none) .init overlapping).isSome := by
    decide +kernel
  obtain ⟨c, hc⟩ := Option.isSome_iff_exists.mp hrun
  have hsteps : Trans.Steps (System.step schema body)
      (fun m l _ => m.polls l ∧ ∀ q d, m.Calls schema l q d → Below q d) .init overlapping c :=
    (Trans.Steps.of_checked_run _ hc).mono fun m l _ hok => by
      obtain ⟨hpolls, hbelow⟩ := Bool.and_eq_true_iff.mp hok.2
      exact ⟨hpolls, fun q d => below_of_descends hbelow⟩
  have hstrikes := (h Below overlapping c acyclic_below hsteps).strikes
  exact absurd hstrikes (by decide +kernel)

open Siblings in
open Cancellation (schema) in
/-- Another task computes `leaf` while `whole` reads it and `part`, and `part` reads it too: each
has recorded what it has read. -/
theorem interleaved_reads_are_recorded :
    ∃ m c r, Trans.run (System.step schema body) .init waiting = some m ∧
      (∀ id ∈ [1, 2, 3], ((m.tasks 0).calls id).isSome) ∧
      Trans.Steps (System.step schema body) (fun m l _ => m.polls l) .init
        (waiting ++ returning) c ∧
      c.world.state 0 whole = .ready r ∧ r.value = 2 ∧ r.deps = [leaf, part] ∧
        ∃ x ∈ Trans.shown (System.step schema body) System.finished .init (waiting ++ returning),
          x.key = whole ∧ x.out = .ok r.value ∧ x.reads = r.deps := by
  have hrun : (Trans.run (System.step schema body) .init waiting).any (fun m =>
        ∀ id ∈ [1, 2, 3], ((m.tasks 0).calls id).isSome) ∧
      (Trans.run (fun c l => if c.polls l && turns c l && descends c l then
        System.step schema body c l else none) .init (waiting ++ returning)).any (fun c =>
          c.world.state 0 whole = .ready ⟨2, 1, 1, [leaf, part], false⟩) := by
    decide +kernel
  obtain ⟨hwaiting, hrun⟩ := hrun
  obtain ⟨m, hm, hcalls⟩ := (Option.any_eq_true ..).mp hwaiting
  obtain ⟨c, hc, hr⟩ := (Option.any_eq_true ..).mp hrun
  have hr := of_decide_eq_true hr
  have hchecked := Trans.Steps.of_checked_run _ hc
  have hsteps : Trans.Steps (System.step schema body)
      (fun m l _ => m.InTurn schema l ∧ ∀ q d, m.Calls schema l q d → Below q d) .init
      (waiting ++ returning) c :=
    hchecked.mono fun m l _ hok => by
      obtain ⟨hok, hbelow⟩ := Bool.and_eq_true_iff.mp hok.2
      exact ⟨inTurn_of_turns (Bool.and_eq_true_iff.mp hok).2, fun q d => below_of_descends hbelow⟩
  have hpolls : Trans.Steps (System.step schema body) (fun m l _ => m.polls l) .init
      (waiting ++ returning) c :=
    hchecked.mono fun m l _ hok => by
      exact (Bool.and_eq_true_iff.mp (Bool.and_eq_true_iff.mp hok.2).1).1
  exact ⟨m, c, _, hm, of_decide_eq_true hcalls, hpolls, hr, rfl, rfl,
    (joined_reads_are_recorded acyclic_below hsteps).cells 0 whole _ hr⟩

end Picante.Joined

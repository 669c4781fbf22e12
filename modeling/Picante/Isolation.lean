/-
# Snapshots and the database they were made from

A database and its snapshots share one cache of completed results, in which a record carries the
revision it was verified at, but not the view that computed it.  A view that finds a record of
another revision revalidates it, by comparing change stamps.  The stamps of one view say nothing
about the history of another, so a foreign record can be accepted that is wrong for the view.

* A snapshot accepts what the database has computed since (`future_value_adopted`).  Without
  such an acceptance, its results are those of the inputs it was made from
  (`snapshots_are_isolated`).
* The database accepts what a snapshot has computed, when an input was changed and changed back
  (`snapshot_result_adopted`).  Without it, leaving out what snapshots compute changes nothing
  (`snapshots_are_invisible`).
-/
import Picante.Consistency

namespace Picante

open ReadProg Config

variable {V : Type}

/-! ## 1. Programs on a family of views -/

/-- Inputs are changed on the database only. -/
def Config.Op.Primary (op : Op V) : Prop := op.label.Primary

/-- A record foreign to the view was accepted by revalidation or failed it, or its revalidation
ran into a cycle. -/
def Event.trustsForeign : Event → Bool
  | .revalidated _ _ _ foreign verdict => foreign && verdict ≠ .refused
  | .cycle _ _ underForeign => underForeign
  | .missing .. => false

theorem allows_failures {e : Event} (hf : e.trustsForeign = false) (hm : e.isMissing = false) :
    Allows .failures e := by
  cases e with
  | revalidated i k shared foreign verdict =>
    refine ⟨fun hforeign => ?_, nofun⟩
    subst hforeign
    have hv : verdict = .refused := by simpa [Event.trustsForeign] using hf
    subst hv
    exact ⟨nofun, fun _ => nofun⟩
  | cycle i k under => exact ⟨nofun, fun _ => hf⟩
  | missing i k => cases hm

section family

variable [DecidableEq V] {S : Schema V} {body : DynKey → Query V} {fuel fuel' : Nat}
  {ops ops₁ ops₂ : List (Op V)} {q : DynKey} {want : Bool} {c c' c₁ : Config V}
  {i : ViewId}

/-- What an access on any view returns agrees with the evaluation over the slots of the view. -/
theorem agrees_in_family (hdet : ∀ n q, S.compute n q = body q)
    (hprop : ∀ q, (body q).Propagates)
    (h : runOps S fuel init (ops ++ [.access i q want]) = some c)
    (hops : ∀ op ∈ ops, op.Primary)
    (hlog : ∀ e ∈ c.world.log, e.trustsForeign = false ∧ e.isMissing = false) :
    ∃ r, c.lastResult = some r ∧ Spec.Returned ⟨S, body, .failures⟩ c.world i q r ∧
      Agrees S body c.world ((c.world.inputs i).get) q r := by
  have hT : Spec.Fits ⟨S, body, .failures⟩ := ⟨hdet, fun _ => hprop⟩
  obtain ⟨r, hr, hret⟩ := returned_of_orderly (T := ⟨S, body, .failures⟩) (P := Label.Primary) hT
    (Spec.consistent_init _) Spec.upToDate_init idle_init h hops trivial fun ls m hrun hgrow => by
      obtain ⟨horderly, hcalm⟩ := orderly_of_sequential .failures hrun calm_init
        (fun _ => id) nofun fun e he => by
          obtain ⟨hf, hm⟩ := hlog e (hgrow.mem he)
          exact allows_failures hf hm
      have hstep : ∀ t, SequentialIn Label.Primary m (.step t) c := fun t => .inl ⟨t, rfl⟩
      exact ⟨horderly, fun t => hcalm.asked (hstep t) (fun _ => id) nofun⟩
  exact ⟨r, hr, hret, hret.agrees hprop (derived_of_access h)⟩

/-! ## 2. The slots of a snapshot -/

theorem World.inputs_mutateWorld (w : World V) (k : DynKey) (v : Option V) {j : ViewId}
    (hj : j ≠ 0) : (mutateWorld w 0 k v).inputs j = w.inputs j := by
  unfold mutateWorld
  split
  · rfl
  · rw [inputs_storeInput, if_neg hj, inputs_markDivergent, inputs_modifyRuntime]

/-- **A snapshot keeps its slots** while inputs are changed on the database only. -/
theorem inputs_of_snapshot {ls : List (Label V)}
    (h : Trans.Steps (step S) (SequentialIn Label.Primary) c ls c') {j : ViewId} (hj : j ≠ 0)
    (hlt : j < c.world.viewCount) :
    c'.world.inputs j = c.world.inputs j ∧ j < c'.world.viewCount := by
  refine h.invariant (I := fun m => m.world.inputs j = c.world.inputs j ∧ j < m.world.viewCount)
    ⟨rfl, hlt⟩ fun m l m' ⟨hm, hjm⟩ hl hok => ?_
  rcases hok with ⟨t, rfl⟩ | ⟨-, hop, hprim⟩
  · have hfix := (taskStep_of_step hl).fixed
    exact ⟨(hfix.inputs j).trans hm, Nat.lt_of_lt_of_eq hjm hfix.viewCount.symm⟩
  · cases l with
    | spawn view key want =>
      simp only [step] at hl
      split at hl <;> cases hl
      exact ⟨hm, hjm⟩
    | mutate view key value =>
      obtain rfl : view = 0 := hprim
      simp only [step] at hl
      split at hl <;> cases hl
      exact ⟨(World.inputs_mutateWorld _ key value hj).trans hm,
        Nat.lt_of_lt_of_le hjm (grows_mutateWorld ..).viewCount⟩
    | intern kind value => cases hl; exact ⟨hm, hjm⟩
    | bump view =>
      simp only [step] at hl
      split at hl <;> cases hl
      exact ⟨(World.inputs_modifyRuntime ..).trans hm, hjm⟩
    | snapshot =>
      cases hl
      refine ⟨?_, Nat.lt_succ_of_lt hjm⟩
      show m.world.snapshot.inputs j = _
      rw [World.inputs_snapshot, if_neg (Nat.ne_of_lt hjm)]
      exact hm
    | step t | drop t | «begin» view key value | advance m => cases hop

/-- **Snapshot isolation.**  An access on a snapshot returns what the evaluation over the inputs
the database had when the snapshot was made returns, however far the database has advanced, as
long as no view trusts a foreign record. -/
theorem snapshots_are_isolated (hdet : ∀ n q, S.compute n q = body q)
    (hprop : ∀ q, (body q).Propagates) (h₁ : runOps S fuel init ops₁ = some c₁)
    (h : runOps S fuel c₁ ((.snapshot :: ops₂) ++ [.access c₁.world.viewCount q want]) = some c)
    (hops₁ : ∀ op ∈ ops₁, op.Primary) (hops₂ : ∀ op ∈ ops₂, op.Primary)
    (hlog : ∀ e ∈ c.world.log, e.trustsForeign = false ∧ e.isMissing = false) :
    ∃ r, c.lastResult = some r ∧ Agrees S body c.world ((c₁.world.inputs 0).get) q r := by
  have hwhole : runOps S fuel init
      ((ops₁ ++ .snapshot :: ops₂) ++ [.access c₁.world.viewCount q want]) = some c := by
    rw [List.append_assoc, runOps_append, h₁]
    exact h
  obtain ⟨r, hr, -, hagree⟩ := agrees_in_family hdet hprop hwhole (fun op hop => by
    rcases List.mem_append.mp hop with hop | hop
    · exact hops₁ op hop
    · rcases List.mem_cons.mp hop with rfl | hop
      · trivial
      · exact hops₂ op hop) hlog
  refine ⟨r, hr, ?_⟩
  -- the slots of the snapshot are still those the database had
  obtain ⟨ls₁, hls₁, hidle₁⟩ := runOps_steps (P := Label.Primary) h₁ idle_init hops₁
  have hcount : 0 < c₁.world.viewCount := by
    have hgrow := hls₁.invariant (I := fun m => (init : Config V).world.Grows m.world)
      (.refl _) fun m l m' hm hl _ => hm.trans (grows_step hl)
    exact hgrow.viewCount
  have hsnap : runOps S fuel { c₁ with world := c₁.world.snapshot }
      (ops₂ ++ [.access c₁.world.viewCount q want]) = some c := h
  obtain ⟨ls, hls, -⟩ := runOps_steps (P := Label.Primary) hsnap
    (c := { c₁ with world := c₁.world.snapshot }) hidle₁ fun op hop => by
      rcases List.mem_append.mp hop with hop | hop
      · exact hops₂ op hop
      · rw [List.mem_singleton.mp hop]
        trivial
  obtain ⟨hinputs, -⟩ := inputs_of_snapshot hls (j := c₁.world.viewCount)
    (Nat.ne_of_gt hcount) (Nat.lt_succ_self _)
  have hnew : c₁.world.snapshot.inputs c₁.world.viewCount = c₁.world.inputs 0 := by
    rw [World.inputs_snapshot, if_pos rfl]
  rw [hinputs] at hagree
  have heq : ({ c₁ with world := c₁.world.snapshot } : Config V).world.inputs
      c₁.world.viewCount = c₁.world.inputs 0 := hnew
  rwa [heq] at hagree

/-! ## 3. Two runs -/

omit [DecidableEq V] in
/-- Worlds whose databases hold the same inputs at the same revision, with the same interned
values. -/
structure World.Twin (w w' : World V) : Prop where
  inputs : w'.inputs 0 = w.inputs 0
  rev : w'.rev 0 = w.rev 0
  interned : w'.interned = w.interned

omit [DecidableEq V] in
theorem World.Fixed.twin {w w' w'' : World V} (h : w.Fixed w') (ht : w.Twin w'') :
    w'.Twin w'' :=
  ⟨ht.inputs.trans (h.inputs 0).symm, ht.rev.trans (h.rev 0).symm,
    ht.interned.trans h.interned.symm⟩

omit [DecidableEq V] in
theorem World.Fixed.twin_right {w w' w'' : World V} (h : w'.Fixed w'') (ht : w.Twin w') :
    w.Twin w'' :=
  ⟨(h.inputs 0).trans ht.inputs, (h.rev 0).trans ht.rev, h.interned.trans ht.interned⟩

theorem World.Twin.mutate {w w' : World V} (h : w.Twin w') (k : DynKey) (v : Option V) :
    (mutateWorld w 0 k v).Twin (mutateWorld w' 0 k v) := by
  have hrev : (w'.modifyRuntime 0 (·.bumpRevision)).rev 0 =
      (w.modifyRuntime 0 (·.bumpRevision)).rev 0 := by
    rw [rev_modifyRuntime, rev_modifyRuntime, if_pos rfl, if_pos rfl]
    exact congrArg (· + 1) h.rev
  unfold mutateWorld
  rw [h.inputs]
  split
  · exact h
  · refine ⟨?_, ?_, h.interned⟩
    · simp only [inputs_storeInput, if_pos, inputs_markDivergent, inputs_modifyRuntime, h.inputs,
        hrev]
    · simp only [rev_storeInput, rev_markDivergent, hrev]

/-- An access changes no input and no revision. -/
theorem finish_fixed {t : TaskId} (h : finish S t fuel c = some c') :
    c.world.Fixed c'.world := by
  induction fuel generalizing c with
  | zero => cases h
  | succ fuel ih =>
    unfold finish at h
    split at h
    · cases h
      exact .refl _
    · split at h
      · cases h
      · next m hm => exact (taskStep_of_step hm).fixed.trans (ih h)

theorem access_fixed {view : ViewId} (h : runOp S fuel c (.access view q want) = some c') :
    c.world.Fixed c'.world := by
  simp only [runOp] at h
  split at h
  · cases h
  · next m hm =>
    have hworld : m.world = c.world := by
      simp only [step] at hm
      split at hm <;> cases hm
      rfl
    exact hworld ▸ finish_fixed h

/-- The operation is an access on a snapshot. -/
def Config.Op.onSnapshot : Op V → Bool
  | .access view _ _ => view != 0
  | _ => false

/-- Leaving out the accesses on snapshots leaves the database at the same inputs. -/
theorem twin_without_snapshots {d d' : Config V} (h : runOps S fuel c ops = some d)
    (h' : runOps S fuel' c' (ops.filter (!·.onSnapshot)) = some d')
    (hops : ∀ op ∈ ops, op.Primary) (htwin : c.world.Twin c'.world) :
    d.world.Twin d'.world := by
  induction ops generalizing c c' with
  | nil =>
    cases h
    cases h'
    exact htwin
  | cons op ops ih =>
    have hrest : ∀ op' ∈ ops, op'.Primary := fun op' hop => hops op' (List.mem_cons_of_mem _ hop)
    unfold runOps at h
    cases hop : runOp S fuel c op with
    | none => simp [hop] at h
    | some m =>
      simp only [hop] at h
      by_cases hsnap : op.onSnapshot = true
      · -- an access that is left out
        rw [List.filter_cons_of_neg (by simp [hsnap])] at h'
        cases op with
        | access view key want => exact ih h h' hrest ((access_fixed hop).twin htwin)
        | _ => cases hsnap
      · rw [List.filter_cons_of_pos (by simp [hsnap])] at h'
        unfold runOps at h'
        cases hop' : runOp S fuel' c' op with
        | none => simp [hop'] at h'
        | some m' =>
          simp only [hop'] at h'
          refine ih h h' hrest ?_
          cases op with
          | mutate view key value =>
            obtain rfl : view = 0 := hops _ (List.mem_cons_self ..)
            simp only [runOp, step] at hop hop'
            split at hop <;> cases hop
            split at hop' <;> cases hop'
            exact htwin.mutate key value
          | intern kind value =>
            cases hop
            cases hop'
            refine ⟨htwin.inputs, htwin.rev, ?_⟩
            show (c'.world.intern kind value).interned = (c.world.intern kind value).interned
            simp only [World.intern, htwin.interned]
          | bump view =>
            obtain rfl : view = 0 := hops _ (List.mem_cons_self ..)
            simp only [runOp, step] at hop hop'
            split at hop <;> cases hop
            split at hop' <;> cases hop'
            refine ⟨?_, ?_, htwin.interned⟩
            · simp only [World.inputs_modifyRuntime, htwin.inputs]
            · simp only [World.rev_modifyRuntime, if_pos]
              exact congrArg (· + 1) htwin.rev
          | snapshot =>
            cases hop
            cases hop'
            refine ⟨?_, ?_, htwin.interned⟩
            · show c'.world.snapshot.inputs 0 = c.world.snapshot.inputs 0
              rw [World.inputs_snapshot, World.inputs_snapshot, htwin.inputs]
              split <;> split <;> rfl
            · show c'.world.snapshot.rev 0 = c.world.snapshot.rev 0
              rw [World.rev_snapshot, World.rev_snapshot, htwin.rev]
              split <;> split <;> rfl
          | access view key want =>
            exact (access_fixed hop).twin ((access_fixed hop').twin_right htwin)

/-- The results agree: the same values, the same failures. -/
structure SameResult (r r' : AccessResult V) : Prop where
  ok : ∀ v, (∃ ch, r = .ok (v, ch)) ↔ ∃ ch, r' = .ok (v, ch)
  error : (∃ e, r = .error e) ↔ ∃ e, r' = .error e

/-- **Memoization on snapshots does not influence the database**, as long as no view trusts a
foreign record: leaving out every access on a snapshot, an access on the database returns the
same value, or fails as well; with the same error, where queries pass on the errors of their
reads as they stand and the evaluation meets no cycle. -/
theorem snapshots_are_invisible (hdet : ∀ n q, S.compute n q = body q)
    (hprop : ∀ q, (body q).Propagates) (hops : ∀ op ∈ ops, op.Primary)
    (h : runOps S fuel init (ops ++ [.access 0 q want]) = some c)
    (h' : runOps S fuel' init (ops.filter (!·.onSnapshot) ++ [.access 0 q want]) = some c')
    (hlog : ∀ e ∈ c.world.log, e.trustsForeign = false ∧ e.isMissing = false)
    (hlog' : ∀ e ∈ c'.world.log, e.isMissing = false) :
    ∃ r r', c.lastResult = some r ∧ c'.lastResult = some r' ∧ SameResult r r' ∧
      ((∀ q, (body q).Forwards) →
        Acyclic (slotsEnv S body c.world ((c.world.inputs 0).get)) q →
          r.map Prod.fst = r'.map Prod.fst) := by
  have hT : Spec.Fits ⟨S, body, .failures⟩ := ⟨hdet, fun _ => hprop⟩
  obtain ⟨r, hr, hret, hagree⟩ := agrees_in_family hdet hprop h hops hlog
  -- without the accesses on snapshots nothing is foreign
  have hops' : ∀ op ∈ ops.filter (!·.onSnapshot), op.OnDatabase := by
    intro op hop
    obtain ⟨hop, hkeep⟩ := List.mem_filter.mp hop
    have hprim := hops op hop
    cases op with
    | access view key want =>
      have hview : view = 0 := by simpa [Op.onSnapshot] using hkeep
      exact hview
    | mutate view key value => exact hprim
    | bump view => exact hprim
    | intern kind value => trivial
    | snapshot => trivial
  obtain ⟨r', hr', hret'⟩ := returned_on_database (T := ⟨S, body, .failures⟩) hT
    (Spec.rested_init _) h' hops'
    fun e he hf => allows_native hf (hlog' e he)
  have hagree' := hret'.agrees hprop (derived_of_access h')
  have htwin : c.world.Twin c'.world := by
    have hfilter : (ops ++ [Op.access 0 q want]).filter (!·.onSnapshot) =
        ops.filter (!·.onSnapshot) ++ [.access 0 q want] := List.filter_append ..
    refine twin_without_snapshots h (hfilter ▸ h') (fun op hop => ?_) ⟨rfl, rfl, rfl⟩
    · rcases List.mem_append.mp hop with hop | hop
      · exact hops op hop
      · rw [List.mem_singleton.mp hop]
        trivial
  have henv : slotsEnv S body c'.world ((c'.world.inputs 0).get) =
      slotsEnv S body c.world ((c.world.inputs 0).get) := by
    rw [htwin.inputs]
    simp only [slotsEnv, Spec.env, World.internedAt, htwin.interned]
  have hsame : ∀ out, Uncached S body c'.world ((c'.world.inputs 0).get) q out ↔
      Uncached S body c.world ((c.world.inputs 0).get) q out := by
    intro out
    unfold Uncached
    rw [henv]
  refine ⟨r, r', hr, hr', ⟨fun v => ?_, ?_⟩, fun hfwd hac => ?_⟩
  · exact (hagree.ok v).trans ((hsame _).symm.trans (hagree'.ok v).symm)
  · exact hagree.error.trans ((exists_congr fun e => hsame _).symm.trans hagree'.error.symm)
  · -- the one error of the evaluation
    have payload : ∀ {r : AccessResult V}, Spec.Returned ⟨S, body, .failures⟩ c.world 0 q r →
        Yields (slotsEnv S body c.world ((c.world.inputs 0).get)) q
          ((r.map Prod.fst).map some) := by
      intro r hret
      cases r with
      | ok vc => exact hret
      | error e =>
        exact Doomed.yields_error hfwd (Spec.derived_env.mpr (derived_of_access h)) hac hret
    have hret'' : Spec.Returned ⟨S, body, .failures⟩ c.world 0 q r' := by
      cases r' with
      | ok vc =>
        have hy : Yields (slotsEnv S body c'.world ((c'.world.inputs 0).get)) q _ := hret'
        rw [henv] at hy
        exact hy
      | error e =>
        have hd : Doomed (slotsEnv S body c'.world ((c'.world.inputs 0).get)) q e := hret'
        rw [henv] at hd
        exact hd
    have heq := (payload hret).functional (payload hret'')
    generalize r.map Prod.fst = out at heq
    generalize r'.map Prod.fst = out' at heq
    cases out <;> cases out' <;> simp_all [Except.map]

end family

/-! ## 4. What goes wrong -/

namespace Isolation

open Cancellation (x valid)

/-- `base` is `x`, and `plusTen` is ten more. -/
def base : DynKey := ⟨1, []⟩
def plusTen : DynKey := ⟨1, [1]⟩

def body (q : DynKey) : Query Nat :=
  if q = base then .read x (valid fun v => .done (.ok v))
  else .read base (valid fun v => .done (.ok (v + 10)))

def schema : Schema Nat := { Cancellation.schema with compute := fun _ => body }

theorem body_propagates (q : DynKey) : (body q).Propagates := by
  unfold body
  split
  · exact ⟨fun e => ⟨e, rfl⟩, fun a =>
      Cancellation.valid_propagates (fun v => .done (.ok v)) (fun _ => trivial) (.ok a)⟩
  · exact ⟨fun e => ⟨e, rfl⟩, fun a =>
      Cancellation.valid_propagates (fun v => .done (.ok (v + 10))) (fun _ => trivial) (.ok a)⟩

/-- The database goes on after the snapshot was made, and computes `plusTen`. -/
def future : List (Op Nat) := [.mutate 0 x (some 2), .access 0 plusTen true]

/-- `base` is computed at 1; at 2, a snapshot computes `plusTen`; then `x` is 1 again. -/
def changedBack : List (Op Nat) :=
  [.mutate 0 x (some 1), .access 0 base true, .mutate 0 x (some 2), .snapshot,
    .access 1 plusTen true, .mutate 0 x (some 1)]

end Isolation

open Isolation in
open Cancellation (x) in
/-- **A snapshot returns a value of the future.**  The snapshot is made with `x = 1`; the
database goes on to `x = 2` and computes `plusTen`.  The snapshot finds that record, sees no input
of its own that was changed later, and adopts it. -/
theorem future_value_adopted :
    ¬ ∀ (fuel : Nat) (ops₁ ops₂ : List (Op Nat)) (q : DynKey) (c₁ c : Config Nat),
      runOps schema fuel init ops₁ = some c₁ →
        runOps schema fuel c₁ ((.snapshot :: ops₂) ++ [.access c₁.world.viewCount q true]) =
          some c → (∀ op ∈ ops₁, op.Primary) → (∀ op ∈ ops₂, op.Primary) →
            ∃ r, c.lastResult = some r ∧
              Agrees schema body c.world ((c₁.world.inputs 0).get) q r := by
  intro h
  have hrun : (runOps schema 60 init [.mutate 0 x (some 1)]).any (fun c₁ =>
      c₁.world.viewCount = 1 ∧
        (runOps schema 60 c₁ ((.snapshot :: future) ++ [.access 1 plusTen true])).any fun c =>
          c.lastResult = some (.ok (12, 2)) ∧
            evaluate (slotsEnv schema body c.world ((c₁.world.inputs 0).get)) (faults schema) 3
              [] plusTen = some (.ok 11)) := by decide +kernel
  obtain ⟨c₁, hc₁, hsecond⟩ := (Option.any_eq_true ..).mp hrun
  obtain ⟨hcount, hsecond⟩ := of_decide_eq_true hsecond
  obtain ⟨c, hc, hlast⟩ := (Option.any_eq_true ..).mp hsecond
  obtain ⟨hresult, heval⟩ := of_decide_eq_true hlast
  obtain ⟨r, hr, hagree⟩ := h 60 [.mutate 0 x (some 1)] future plusTen c₁ c hc₁
    (by rw [hcount]; exact hc)
    (fun op hop => by rw [List.mem_singleton.mp hop]; rfl)
    (fun op hop => by
      simp only [future, List.mem_cons, List.not_mem_nil, or_false] at hop
      rcases hop with rfl | rfl
      · rfl
      · trivial)
  rw [hresult] at hr
  cases hr
  obtain ⟨fuel, hv⟩ := (hagree.ok 12).mp ⟨2, rfl⟩
  cases evaluate_functional hv heval

open Isolation in
open Cancellation (x) in
/-- A snapshot that has nothing to adopt returns what its inputs say. -/
theorem snapshot_is_isolated :
    ∃ c₁ c, runOps schema 60 init [.mutate 0 x (some 1)] = some c₁ ∧
      runOps schema 60 c₁ ((.snapshot :: [.mutate 0 x (some 2)]) ++
        [.access c₁.world.viewCount plusTen true]) = some c ∧
      ∃ r, c.lastResult = some r ∧
        Agrees schema body c.world ((c₁.world.inputs 0).get) plusTen r := by
  have hrun : (runOps schema 60 init [.mutate 0 x (some 1)]).any (fun c₁ =>
      (runOps schema 60 c₁ ((.snapshot :: [.mutate 0 x (some 2)]) ++
        [.access c₁.world.viewCount plusTen true])).any fun c =>
          ∀ e ∈ c.world.log, e.trustsForeign = false ∧ e.isMissing = false) := by
    decide +kernel
  obtain ⟨c₁, hc₁, hsecond⟩ := (Option.any_eq_true ..).mp hrun
  obtain ⟨c, hc, hlog⟩ := (Option.any_eq_true ..).mp hsecond
  refine ⟨c₁, c, hc₁, hc, ?_⟩
  exact snapshots_are_isolated (fun _ _ => rfl) body_propagates hc₁ hc
    (fun op hop => by rw [List.mem_singleton.mp hop]; rfl)
    (fun op hop => by rw [List.mem_singleton.mp hop]; rfl) (of_decide_eq_true hlog)

open Isolation in
open Cancellation (x) in
/-- **The database returns what a snapshot has computed.**  The snapshot computes `plusTen` while
`x = 2`.  Then `x` is 1 again, and the database finds that record; the value of `base` it has
is as old as the first `x = 1`, so the record seems to stand. -/
theorem snapshot_result_adopted :
    ¬ ∀ (fuel : Nat) (ops : List (Op Nat)) (q : DynKey) (c c' : Config Nat),
      (∀ op ∈ ops, op.Primary) → runOps schema fuel init (ops ++ [.access 0 q true]) = some c →
        runOps schema fuel init (ops.filter (!·.onSnapshot) ++ [.access 0 q true]) = some c' →
          ∃ r r', c.lastResult = some r ∧ c'.lastResult = some r' ∧ SameResult r r' := by
  intro h
  have hrun : (runOps schema 100 init (changedBack ++ [.access 0 plusTen true])).any
      (fun c => c.lastResult = some (.ok (12, 2))) := by decide +kernel
  have hrun' : (runOps schema 100 init (changedBack.filter (!·.onSnapshot) ++
      [.access 0 plusTen true])).any (fun c => c.lastResult = some (.ok (11, 3))) := by
    decide +kernel
  obtain ⟨c, hc, hresult⟩ := (Option.any_eq_true ..).mp hrun
  obtain ⟨c', hc', hresult'⟩ := (Option.any_eq_true ..).mp hrun'
  obtain ⟨r, r', hr, hr', hsame⟩ := h 100 changedBack plusTen c c' (fun op hop => by
    simp only [changedBack, List.mem_cons, List.not_mem_nil, or_false] at hop
    rcases hop with rfl | rfl | rfl | rfl | rfl | rfl <;> first | rfl | trivial) hc hc'
  rw [of_decide_eq_true hresult] at hr
  rw [of_decide_eq_true hresult'] at hr'
  cases hr
  cases hr'
  obtain ⟨ch, heq⟩ := (hsame.ok 12).mp ⟨2, rfl⟩
  cases heq

open Isolation in
open Cancellation (x) in
/-- What a snapshot computes at the revision of the database is adopted, and changes nothing. -/
theorem snapshot_is_invisible :
    ∃ c c' r r', runOps schema 60 init ([.mutate 0 x (some 1), .snapshot,
        .access 1 plusTen true] ++ [.access 0 plusTen true]) = some c ∧
      runOps schema 60 init (([.mutate 0 x (some 1), .snapshot, .access 1 plusTen true].filter
        (!·.onSnapshot)) ++ [.access 0 plusTen true]) = some c' ∧
      c.lastResult = some r ∧ c'.lastResult = some r' ∧ SameResult r r' := by
  have hrun : (runOps schema 60 init ([.mutate 0 x (some 1), .snapshot,
      .access 1 plusTen true] ++ [.access 0 plusTen true])).any (fun c =>
        ∀ e ∈ c.world.log, e.trustsForeign = false ∧ e.isMissing = false) := by decide +kernel
  have hrun' : (runOps schema 60 init (([.mutate 0 x (some 1), .snapshot,
      .access 1 plusTen true].filter (!·.onSnapshot)) ++ [.access 0 plusTen true])).any (fun c =>
        ∀ e ∈ c.world.log, e.isMissing = false) := by decide +kernel
  obtain ⟨c, hc, hlog⟩ := (Option.any_eq_true ..).mp hrun
  obtain ⟨c', hc', hlog'⟩ := (Option.any_eq_true ..).mp hrun'
  obtain ⟨r, r', hr, hr', hsame, -⟩ := snapshots_are_invisible (fun _ _ => rfl) body_propagates
    (fun op hop => by
      simp only [List.mem_cons, List.not_mem_nil, or_false] at hop
      rcases hop with rfl | rfl | rfl <;> first | rfl | trivial)
    hc hc' (of_decide_eq_true hlog) (of_decide_eq_true hlog')
  exact ⟨c, c', r, r', hc, hc', hr, hr', hsame⟩

end Picante

/-
# From-scratch consistency

On a single view the caches are invisible: what an access returns is what an evaluation without
any cache returns (`from_scratch_consistent`).

That is for queries which pass errors on.  A query may also look at the error of a read and
still return a value; then the errors of its dependencies matter as its values do, and they are
not treated so.  When the touch of a recorded dependency fails, the `?` of `try_revalidate`
returns that error from the access instead of computing again
(`error_returned_instead_of_fallback`).  Without such a failure, and without a cycle, the access
returns what the evaluation returns, be it an error (`fallbacks_are_consistent`).
-/
import Picante.Coherence.Native
import Picante.Cancellation
import Picante.ReadProg.Evaluate

namespace Picante

open ReadProg Config

variable {V : Type}

/-! ## 1. Evaluation without a cache -/

/-- The errors an access raises by itself. -/
def faults (S : Schema V) : Faults DynKey PicanteError :=
  ⟨fun d stack => .cycle d stack.reverse, World.missingInterned S⟩

/-- What the programs `body` run over: slots holding `content`, and the interning tables of
`w`. -/
def slotsEnv (S : Schema V) (body : DynKey → Query V) (w : World V) (content : Contents V) :
    Env DynKey PicanteError (Option V) V :=
  Spec.env ⟨S, body, .values⟩ w content

/-- `q` is evaluated to `out`, without any cache, over slots holding `content`. -/
def Uncached (S : Schema V) (body : DynKey → Query V) (w : World V) (content : Contents V)
    (q : DynKey) (out : PicanteResult V) : Prop :=
  ∃ fuel, evaluate (slotsEnv S body w content) (faults S) fuel [] q = some out

section uncached

variable {S : Schema V} {body : DynKey → Query V} {w : World V} {content : Contents V}
  {q : DynKey} {out out' : PicanteResult V}

theorem Uncached.functional (h : Uncached S body w content q out)
    (h' : Uncached S body w content q out') : out = out' := by
  obtain ⟨fuel, h⟩ := h
  obtain ⟨fuel', h'⟩ := h'
  exact evaluate_functional h h'

theorem uncached_of_yields (hq : S.sectionType q.kind = .derived) (out : PicanteResult V)
    (h : Yields (slotsEnv S body w content) q (out.map some)) :
    Uncached S body w content q out := by
  obtain ⟨b, hb, hout⟩ := h.outcome (Spec.derived_env.mpr hq)
  have hout : out.map some = b.map some := hout
  obtain rfl : out = b := by
    cases out <;> cases b <;> simp_all [Except.map]
  exact evaluate_of_evaluates hb

theorem uncached_of_doomed (hprop : ∀ q, (body q).Propagates) {e : PicanteError}
    (h : Doomed (slotsEnv S body w content) q e) :
    ∃ e', Uncached S body w content q (.error e') := by
  obtain ⟨fuel, e', he'⟩ := h.evaluate_error (φ := faults S) hprop []
  exact ⟨e', fuel, he'⟩

/-- The value that an evaluation ends with is the one a key yields. -/
theorem uncached_ok {v : V} (hq : S.sectionType q.kind = .derived)
    (h : Yields (slotsEnv S body w content) q (.ok (some v))) :
    Uncached S body w content q (.ok v) :=
  uncached_of_yields hq (.ok v) h

end uncached

/-- The result `r` agrees with the evaluation of `q`: a value is returned exactly when it is
evaluated to, and an error exactly when the evaluation fails. -/
structure Agrees (S : Schema V) (body : DynKey → Query V) (w : World V) (content : Contents V)
    (q : DynKey) (r : AccessResult V) : Prop where
  ok : ∀ v, (∃ ch, r = .ok (v, ch)) ↔ Uncached S body w content q (.ok v)
  error : (∃ e, r = .error e) ↔ ∃ e, Uncached S body w content q (.error e)

/-- What is returned in a run that accounts for failures agrees with the evaluation. -/
theorem Spec.Returned.agrees {S : Schema V} {body : DynKey → Query V} {w : World V} {i : ViewId}
    {q : DynKey} {r : AccessResult V} (hprop : ∀ q, (body q).Propagates)
    (hq : S.sectionType q.kind = .derived)
    (h : Spec.Returned ⟨S, body, .failures⟩ w i q r) :
    Agrees S body w ((w.inputs i).get) q r := by
  cases r with
  | ok vc =>
    obtain ⟨v, ch⟩ := vc
    have hv : Uncached S body w ((w.inputs i).get) q (.ok v) := uncached_ok hq h
    refine ⟨fun v' => ⟨?_, fun h' => ?_⟩, ⟨?_, ?_⟩⟩
    · rintro ⟨ch', heq⟩
      cases heq
      exact hv
    · cases hv.functional h'
      exact ⟨ch, rfl⟩
    · rintro ⟨e, he⟩
      cases he
    · rintro ⟨e, he⟩
      cases hv.functional he
  | error e =>
    obtain ⟨e', he'⟩ := uncached_of_doomed hprop h
    refine ⟨fun v' => ⟨?_, fun h' => ?_⟩, fun _ => ⟨e', he'⟩, fun _ => ⟨e, rfl⟩⟩
    · rintro ⟨ch, heq⟩
      cases heq
    · cases he'.functional h'

/-! ## 2. Programs on the database -/

/-- The operation is one on the database itself. -/
def Config.Op.OnDatabase (op : Op V) : Prop := op.label.OnDatabase

/-- An interned id was read that is not there. -/
def Event.isMissing : Event → Bool
  | .missing .. => true
  | _ => false

/-- An account of failures can do with an event that is not about a foreign record. -/
theorem allows_native {e : Event} (hf : e.foreign = false) (hm : e.isMissing = false) :
    Allows .failures e := by
  cases e with
  | revalidated i k shared foreign verdict =>
    have hf' : foreign = false := hf
    subst hf'
    exact ⟨nofun, nofun⟩
  | cycle i k under => exact ⟨nofun, fun _ => hf⟩
  | missing i k => cases hm

section database

variable [DecidableEq V] {T : Spec V} {fuel : Nat} {ops : List (Op V)} {q : DynKey}
  {want : Bool} {p₀ : Past V} {c₀ c : Config V}

/-- A key that was accessed is that of a derived query. -/
theorem derived_of_access {S : Schema V} {i : ViewId}
    (h : runOps S fuel c₀ (ops ++ [.access i q want]) = some c) :
    S.sectionType q.kind = .derived := by
  rw [runOps_append] at h
  obtain ⟨m, -, hlast⟩ := Option.bind_eq_some_iff.mp h
  simp only [runOps, runOp, step] at hlast
  split at hlast
  · cases hlast
  · next hop =>
    split at hop
    · cases hop
    · next hs =>
      split at hs
      · next hv => exact hv.2
      · cases hs

/-- **What the last access of an orderly program returns is right** over the slots of its view. -/
theorem returned_of_orderly {P : Label V → Prop} {i : ViewId} (hT : T.Fits)
    (hp₀ : T.Consistent p₀ c₀) (hup : Spec.UpToDate p₀ c₀) (hidle₀ : c₀.Idle)
    (h : runOps T.schema fuel c₀ (ops ++ [.access i q want]) = some c)
    (hops : ∀ op ∈ ops, P op.label) (hspawn : P (.spawn i q want))
    (horderly : ∀ ls m, Trans.Steps (step T.schema) (SequentialIn P) c₀ ls m →
      m.world.Grows c.world → Trans.Steps (step T.schema) (Orderly T.account) c₀ ls m ∧
        ∀ t, m.Asked T.account (.step t)) :
    ∃ r, c.lastResult = some r ∧ T.Returned c.world i q r := by
  obtain ⟨ls, m, t, hrun, hstep, hview, hkey, hcount, hidle⟩ :=
    runOps_access h hidle₀ hops hspawn
  obtain ⟨hrun', hask⟩ := horderly ls m hrun (grows_step hstep)
  obtain ⟨p, -, hp, -⟩ := Spec.consistent_run hT hp₀ hup hrun'
  obtain ⟨hworld, -, r, hr, hret⟩ := hp.returns (hask t) hstep (hidle t)
  refine ⟨r, ?_, ?_⟩
  · unfold lastResult
    rw [hcount]
    exact hr
  · rw [hview, hkey] at hret
    rw [hworld]
    exact hret

/-- Between two operations everything is in order, and nothing foreign has been met. -/
structure Spec.Rested (T : Spec V) (p : Past V) (c : Config V) : Prop where
  consistent : T.Consistent p c
  upToDate : Spec.UpToDate p c
  calm : Calm c
  native : Native c
  idle : c.Idle

omit [DecidableEq V] in
theorem Spec.rested_init (T : Spec V) : T.Rested .init init :=
  ⟨consistent_init T, upToDate_init, calm_init, native_init, idle_init⟩

/-- **A sequential run on the database leaves everything in order.** -/
theorem Spec.Rested.run (hT : T.Fits) (h₀ : T.Rested p₀ c₀) {ls : List (Label V)}
    (hrun : Trans.Steps (step T.schema) (SequentialIn Label.OnDatabase) c₀ ls c)
    (hidle : c.Idle) (hlog : ∀ e ∈ c.world.log, e.foreign = false → Allows T.account e) :
    ∃ p, T.Later p₀ c₀.world p c.world ∧ T.Rested p c := by
  obtain ⟨horderly, hcalm, hnative⟩ := orderly_of_native T.account hrun h₀.calm h₀.native hlog
  obtain ⟨p, hlater, hp, hup⟩ := later_run hT h₀.consistent h₀.upToDate horderly
  exact ⟨p, hlater, hp, hup, hcalm, hnative, hidle⟩

/-- **An operation on the database leaves everything in order.** -/
theorem Spec.Rested.runOp (hT : T.Fits) (h₀ : T.Rested p₀ c₀) {op : Op V}
    (h : runOp T.schema fuel c₀ op = some c) (hop : op.OnDatabase)
    (hlog : ∀ e ∈ c.world.log, e.foreign = false → Allows T.account e) :
    ∃ p, T.Later p₀ c₀.world p c.world ∧ T.Rested p c := by
  obtain ⟨ls, hrun, hidle⟩ := runOp_steps (P := Label.OnDatabase) h h₀.idle hop
  exact h₀.run hT hrun hidle hlog

/-- So does a program. -/
theorem Spec.Rested.runOps (hT : T.Fits) (h₀ : T.Rested p₀ c₀)
    (h : runOps T.schema fuel c₀ ops = some c) (hops : ∀ op ∈ ops, op.OnDatabase)
    (hlog : ∀ e ∈ c.world.log, e.foreign = false → Allows T.account e) :
    ∃ p, T.Later p₀ c₀.world p c.world ∧ T.Rested p c := by
  obtain ⟨ls, hrun, hidle⟩ := runOps_steps h h₀.idle hops
  exact h₀.run hT hrun hidle hlog

/-- What an access on the database returns is right over its slots. -/
theorem returned_on_database (hT : T.Fits) (h₀ : T.Rested p₀ c₀)
    (h : runOps T.schema fuel c₀ (ops ++ [.access 0 q want]) = some c)
    (hops : ∀ op ∈ ops, op.OnDatabase)
    (hlog : ∀ e ∈ c.world.log, e.foreign = false → Allows T.account e) :
    ∃ r, c.lastResult = some r ∧ T.Returned c.world 0 q r := by
  refine returned_of_orderly (P := Label.OnDatabase) hT h₀.consistent h₀.upToDate h₀.idle h hops
    rfl fun ls m hrun hgrow => ?_
  obtain ⟨horderly, hcalm, hnative⟩ := orderly_of_native T.account hrun h₀.calm
    h₀.native fun e he hf => hlog e (hgrow.mem he) hf
  have hstep : ∀ t, SequentialIn Label.OnDatabase m (.step t) c := fun t => .inl ⟨t, rfl⟩
  exact ⟨horderly, fun t => hcalm.asked (hstep t) (fun _ => Label.OnDatabase.primary)
    fun _ => hnative.world.leaders⟩

/-- **From-scratch consistency.**  On one view, with any eviction from the shared cache, an
access returns a value exactly when the evaluation without a cache does, and then that value. -/
theorem from_scratch_consistent {S : Schema V} {body : DynKey → Query V}
    (hdet : ∀ n q, S.compute n q = body q) (hprop : ∀ q, (body q).Propagates)
    (h : runOps S fuel init (ops ++ [.access 0 q want]) = some c)
    (hops : ∀ op ∈ ops, op.OnDatabase) (hmissing : ∀ e ∈ c.world.log, e.isMissing = false) :
    ∃ r, c.lastResult = some r ∧ Agrees S body c.world ((c.world.inputs 0).get) q r := by
  have hT : Spec.Fits ⟨S, body, .failures⟩ := ⟨hdet, fun _ => hprop⟩
  obtain ⟨r, hr, hret⟩ := returned_on_database (T := ⟨S, body, .failures⟩) hT
    (Spec.rested_init _) h hops
    fun e he hf => allows_native hf (hmissing e he)
  exact ⟨r, hr, hret.agrees hprop (derived_of_access h)⟩

end database

theorem Cancellation.valid_propagates (next : Nat → Query Nat)
    (hnext : ∀ v, (next v).Propagates) (a : PicanteResult (Option Nat)) :
    (valid next a).Propagates := by
  unfold valid
  split
  · trivial
  · exact hnext _
  · trivial
  · trivial

/-- The queries of `Cancellation` pass errors on. -/
theorem Cancellation.body_propagates (q : DynKey) : (body q).Propagates := by
  unfold body
  split
  · exact ⟨fun e => ⟨e, rfl⟩,
      fun a => valid_propagates (fun v => .done (.ok v)) (fun _ => trivial) (.ok a)⟩
  · refine ⟨fun e => ⟨e, rfl⟩, fun a => valid_propagates _ (fun v => ?_) (.ok a)⟩
    exact ⟨fun e => ⟨e, rfl⟩,
      fun a' => valid_propagates (fun v' => .done (.ok (v + v'))) (fun _ => trivial) (.ok a')⟩

open Cancellation in
/-- A value is computed, then an input goes bad, and the access to the sum fails as its
evaluation does. -/
theorem from_scratch_consistent_bad_input :
    ∃ c, runOps schema 60 init (program.take 4 ++ [.access 0 whole true]) = some c ∧
      ∃ r, c.lastResult = some r ∧
        Agrees schema body c.world ((c.world.inputs 0).get) whole r := by
  have hrun : (runOps schema 60 init (program.take 4 ++ [.access 0 whole true])).any
      (fun c => ∀ e ∈ c.world.log, e.isMissing = false) := by decide +kernel
  obtain ⟨c, hc, hmissing⟩ := (Option.any_eq_true ..).mp hrun
  refine ⟨c, hc, from_scratch_consistent (fun _ _ => rfl) body_propagates hc (fun op hop => ?_)
    (of_decide_eq_true hmissing)⟩
  simp only [program, List.take, List.mem_cons, List.not_mem_nil, or_false] at hop
  rcases hop with rfl | rfl | rfl | rfl <;> rfl

/-! ## 3. Programs that look at errors -/

/-- The touch of a recorded dependency failed, a key was met again on its own stack, or an
interned id was read that is not there. -/
def Event.isTrouble : Event → Bool
  | .revalidated _ _ _ _ verdict => verdict = .failed
  | .cycle .. | .missing .. => true

/-- **Queries may look at errors**: on one view, an access returns what the evaluation without a
cache ends with, value or error, as long as the touch of no recorded dependency fails, no key is
met again on its own stack, and no interned id is read that is not there. -/
theorem fallbacks_are_consistent [DecidableEq V] {S : Schema V} {body : DynKey → Query V}
    {fuel : Nat} {ops : List (Op V)} {q : DynKey} {want : Bool} {c : Config V}
    (hdet : ∀ n q, S.compute n q = body q)
    (h : runOps S fuel init (ops ++ [.access 0 q want]) = some c)
    (hops : ∀ op ∈ ops, op.OnDatabase) (hlog : ∀ e ∈ c.world.log, e.isTrouble = false) :
    ∃ r, c.lastResult = some r ∧
      Uncached S body c.world ((c.world.inputs 0).get) q (r.map Prod.fst) := by
  have hT : Spec.Fits ⟨S, body, .answers⟩ := ⟨hdet, fun h => absurd rfl h⟩
  obtain ⟨r, hr, hret⟩ := returned_on_database (T := ⟨S, body, .answers⟩) hT
    (Spec.rested_init _) h hops
    fun e he hf => by
      have ht := hlog e he
      cases e with
      | revalidated i k shared foreign verdict =>
        have hf' : foreign = false := hf
        subst hf'
        exact ⟨nofun, fun _ => of_decide_eq_false ht⟩
      | cycle i k under => cases ht
      | missing i k => cases ht
  refine ⟨r, hr, uncached_of_yields (derived_of_access h) _ ?_⟩
  cases r with
  | ok vc => exact hret
  | error e => exact hret

namespace Consistency

open Cancellation (x valid)

/-- `checked` is `x`, and fails on 9; `guarded` is `checked`, and 0 where that fails. -/
def checked : DynKey := ⟨1, []⟩
def guarded : DynKey := ⟨1, [1]⟩

def body (q : DynKey) : Query Nat :=
  if q = checked then .read x (valid fun v => .done (.ok v))
  else .read checked fun
    | .ok (some v) => .done (.ok v)
    | _ => .done (.ok 0)

def schema : Schema Nat := { Cancellation.schema with compute := fun _ => body }

/-- `guarded` is computed, then its dependency goes bad. -/
def program : List (Op Nat) :=
  [.mutate 0 x (some 1), .access 0 guarded true, .mutate 0 x (some 9)]

end Consistency

open Consistency in
/-- **The error of a dependency is returned in place of the fallback.**  `guarded` has a fallback
for the error of `checked`, and evaluates to 0; but its recorded dependency `checked` is touched
first, fails, and the access returns that error. -/
theorem error_returned_instead_of_fallback :
    ¬ ∀ (fuel : Nat) (ops : List (Op Nat)) (q : DynKey) (c : Config Nat)
      (r : AccessResult Nat), runOps schema fuel init (ops ++ [.access 0 q true]) = some c →
        (∀ op ∈ ops, op.OnDatabase) → c.lastResult = some r →
          Uncached schema body c.world ((c.world.inputs 0).get) q (r.map Prod.fst) := by
  intro h
  have hrun : (runOps schema 60 init (program ++ [.access 0 guarded true])).any (fun c =>
      c.lastResult = some (.error (.cache "bad value")) ∧
        evaluate (slotsEnv schema body c.world ((c.world.inputs 0).get)) (faults schema) 3 []
          guarded = some (.ok 0)) := by decide +kernel
  obtain ⟨c, hc, hlast⟩ := (Option.any_eq_true ..).mp hrun
  obtain ⟨hresult, heval⟩ := of_decide_eq_true hlast
  have hret := h 60 program guarded c _ hc (fun op hop => ?_) hresult
  · cases hret.functional ⟨3, heval⟩
  · simp only [program, List.mem_cons, List.not_mem_nil, or_false] at hop
    rcases hop with rfl | rfl | rfl <;> rfl

namespace Consistency

/-- `guarded` is 0 when `checked` fails, which then no longer does. -/
def recovering : List (Op Nat) :=
  [.mutate 0 Cancellation.x (some 9), .access 0 guarded true, .mutate 0 Cancellation.x (some 3)]

end Consistency

open Consistency in
/-- The fallback was cached, and is not kept when its dependency succeeds again: two records are
looked at, neither touch fails, and `guarded` is 3. -/
theorem fallback_is_consistent_when_fresh :
    ∃ c, runOps schema 60 init (recovering ++ [.access 0 guarded true]) = some c ∧
      c.world.log.length = 2 ∧
        ∃ r, c.lastResult = some r ∧ r.map Prod.fst = .ok 3 ∧
          Uncached schema body c.world ((c.world.inputs 0).get) guarded (r.map Prod.fst) := by
  have hrun : (runOps schema 60 init (recovering ++ [.access 0 guarded true])).any (fun c =>
      (∀ e ∈ c.world.log, e.isTrouble = false) ∧ c.world.log.length = 2 ∧
        c.lastResult.any fun r => r.map Prod.fst = .ok 3) := by decide +kernel
  obtain ⟨c, hc, hrest⟩ := (Option.any_eq_true ..).mp hrun
  obtain ⟨hlog, hlength, hrest⟩ := of_decide_eq_true hrest
  obtain ⟨r, hr, hvalue⟩ := (Option.any_eq_true ..).mp hrest
  have hops : ∀ op ∈ recovering, op.OnDatabase := by
    intro op hop
    simp only [recovering, List.mem_cons, List.not_mem_nil, or_false] at hop
    rcases hop with rfl | rfl | rfl <;> rfl
  obtain ⟨r', hr', huncached⟩ := fallbacks_are_consistent (fun _ _ => rfl) hc hops hlog
  obtain rfl := Option.some.inj (hr.symm.trans hr')
  exact ⟨c, hc, hlength, r, hr, of_decide_eq_true hvalue, huncached⟩

end Picante

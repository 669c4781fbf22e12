/-
# What a run is judged by

The values a run hands out are judged by what the queries evaluate to, without any cache, over
the input slots.  Two things are needed to say so along a run.

* `Spec` -- the programs of the queries, and how failures are accounted for.
* `Past` -- the history of the database: what its slots held at every revision (`content`),
  and what its own derived cells were answered at every revision (`answer`).  It is not part of
  the state; it is what a proof remembers.

A revision counts as soon as it is *settled*: no `set` or `remove` has moved the revision and
still has to store its entry.

`Now` is the one fact every argument is about: what a key holds for a view at its revision, with
a change stamp that is honest about the past of the database.
-/
import Picante.ReadProg.Account
import Picante.Stamp.Basic
import Picante.Steps

namespace Picante

open ReadProg Stamp

variable {V : Type}

/-! ## 1. The specification -/

/-- The contents of all input slots. -/
abbrev Contents (V : Type) := DynKey → Option V

/-- What a run is judged by. -/
structure Spec (V : Type) where
  schema : Schema V
  body : DynKey → Query V
  account : Account

namespace Spec

/-- Compute functions are deterministic, and suit the account of failures. -/
structure Fits (T : Spec V) : Prop where
  deterministic : ∀ n q, T.schema.compute n q = T.body q
  suits : T.account.Suits T.body

/-- The environment of the given contents, with the interning tables of `w`. -/
def env (T : Spec V) (w : World V) (content : Contents V) :
    Env DynKey PicanteError (Option V) V where
  derived d := decide (T.schema.sectionType d.kind = .derived)
  base d :=
    match T.schema.sectionType d.kind with
    | .input => some (content d)
    | .interned => (w.internedAt T.schema d).map some
    | .derived => none
  embed := some
  body := T.body

/-- The key is that of a derived query. -/
abbrev Derived (T : Spec V) (k : DynKey) : Prop := T.schema.sectionType k.kind = .derived

theorem derived_env {T : Spec V} {w : World V} {content : Contents V} {k : DynKey} :
    (T.env w content).derived k = true ↔ T.Derived k := decide_eq_true_iff

end Spec

/-! ## 2. The past -/

/-- The history of the database. -/
structure Past (V : Type) where
  settled : Revision
  content : Revision → Contents V
  answer : DynKey → History (PicanteResult (Option V))

namespace Past

/-- At revision 0, with nothing in the slots. -/
def init : Past V := { settled := 0, content := fun _ _ => none, answer := fun _ _ => none }

/-- `p'` remembers what `p` does of the contents. -/
structure Extends (p p' : Past V) : Prop where
  settled : p.settled ≤ p'.settled
  content : ∀ r, r ≤ p.settled → p'.content r = p.content r

theorem Extends.refl (p : Past V) : p.Extends p := ⟨Nat.le_refl _, fun _ _ => rfl⟩

theorem Extends.trans {p p' p'' : Past V} (h : p.Extends p') (h' : p'.Extends p'') :
    p.Extends p'' :=
  ⟨Nat.le_trans h.settled h'.settled,
    fun r hr => (h'.content r (Nat.le_trans hr h.settled)).trans (h.content r hr)⟩

end Past

namespace Spec

variable (T : Spec V) (p : Past V) (w : World V)

/-- What every key was told at every revision: the content of a settled slot, an interned value,
an answer of the database. -/
def told : Told DynKey PicanteError (Option V) := fun d r =>
  match T.schema.sectionType d.kind with
  | .input => if r ≤ p.settled then some (.ok (p.content r d)) else none
  | .interned => (w.internedAt T.schema d).map fun v => .ok (some v)
  | .derived => p.answer d r

/-- `a` is what `d` evaluates to over the contents at revision `r`. -/
def Right (r : Revision) (d : DynKey) (a : PicanteResult (Option V)) : Prop :=
  Yields (T.env w (p.content r)) d a

/-- The error `e` for `d` is accounted for at revision `r`. -/
def Fails (r : Revision) (d : DynKey) (e : PicanteError) : Prop :=
  T.account.Fails (T.env w (p.content r)) d e

/-- **What `d` holds now**, for a view at revision `r`: the answer `a`, with the stamp `c`.  On
the database itself, it is on record as well. -/
structure Now (i : ViewId) (r : Revision) (d : DynKey) (a : PicanteResult (Option V))
    (c : Revision) : Prop where
  right : T.Right p w r d a
  honest : Honest (T.told p w d) r a c
  told : i = 0 → T.told p w d r = some a

/-- The evidence for a record of `q`, verified at `ver`: its dependencies are the reads of the
program on what the database was told at some revision in between. -/
def Evidence (q : DynKey) (v : V) (deps : List Dep) (c ver : Revision) : Prop :=
  ∃ s obs, c ≤ s ∧ s ≤ ver ∧ deps = obs.map Prod.fst ∧ Follows (T.body q) obs (.done (.ok v)) ∧
    Recorded (T.told p w) s obs

variable {T p w}

theorem told_input {d : DynKey} (hd : T.schema.sectionType d.kind = .input) (r : Revision) :
    T.told p w d r = if r ≤ p.settled then some (.ok (p.content r d)) else none := by
  simp [told, hd]

theorem told_interned {d : DynKey} (hd : T.schema.sectionType d.kind = .interned)
    (r : Revision) :
    T.told p w d r = (w.internedAt T.schema d).map fun v => .ok (some v) := by
  simp [told, hd]

theorem told_derived {d : DynKey} (hd : T.Derived d) : T.told p w d = p.answer d := by
  funext r
  simp [told, hd]

/-- Two right answers are the same. -/
theorem Right.functional {r : Revision} {d : DynKey} {a a' : PicanteResult (Option V)}
    (h : T.Right p w r d a) (h' : T.Right p w r d a') : a = a' :=
  Yields.functional h h'

theorem Right.input {d : DynKey} (hd : T.schema.sectionType d.kind = .input) (r : Revision) :
    T.Right p w r d (.ok (p.content r d)) :=
  .base (by simp [env, hd]) (by simp [env, hd])

theorem Right.interned {d : DynKey} (hd : T.schema.sectionType d.kind = .interned) {v : V}
    (hv : w.internedAt T.schema d = some v) (r : Revision) :
    T.Right p w r d (.ok (some v)) :=
  .base (by simp [env, hd]) (by simp [env, hd, hv])

/-- The outcome of a program on right answers is right. -/
theorem Right.of_follows {r : Revision} {q : DynKey} {obs : Obs DynKey PicanteError (Option V)}
    {out : PicanteResult V} (hq : T.Derived q) (hf : Follows (T.body q) obs (.done out))
    (hobs : ∀ da ∈ obs, T.Right p w r da.1 da.2) : T.Right p w r q (out.map some) :=
  Yields.of_follows (derived_env.mpr hq) hf hobs

theorem Now.mono {i : ViewId} {r : Revision} {d : DynKey} {a : PicanteResult (Option V)}
    {c c' : Revision} (h : T.Now p w i r d a c) (hc : c ≤ c') : T.Now p w i r d a c' :=
  ⟨h.right, h.honest.mono (Nat.le_refl _) hc, h.told⟩

theorem Evidence.mono {q : DynKey} {v : V} {deps : List Dep} {c ver ver' : Revision}
    (h : T.Evidence p w q v deps c ver) (hver : ver ≤ ver') : T.Evidence p w q v deps c ver' := by
  obtain ⟨s, obs, hc, hs, hrest⟩ := h
  exact ⟨s, obs, hc, Nat.le_trans hs hver, hrest⟩

/-- **A past observation whose key is stamped no later than the record still stands.** -/
theorem Now.stands {i : ViewId} {r s c c' : Revision} {d : DynKey}
    {a b : PicanteResult (Option V)} (h : T.Now p w i r d a c') (hc : c' ≤ c) (hs : c ≤ s)
    (hr : s < r) (hb : T.told p w d s = some b) : T.Now p w i r d b c := by
  obtain rfl := h.honest.checked hc hs hr hb
  exact h.mono hc

end Spec

end Picante

/-
# Three ways to account for failures

A caching evaluator reports an error when it cannot answer.  How much its errors mean depends
on the programs and on the evaluator, and an argument about the cached *values* needs to know
only as much as the values depend on them.

* `values` -- errors mean nothing.  This is enough for the values of programs that propagate
  errors, since such a program ends with a value only if it has seen none.
* `failures` -- an error is reported only for a doomed key (`Doomed`), whatever its payload.
* `answers` -- an error is the very outcome of the key, as a value is.  Then programs need not
  propagate errors: what they make of one is made of the right one.

`Reads` is what an evaluator knows of a program it is running, and the lemmas say what an error
at the end of it, of its next read, or of a check of its next read amounts to.
-/
import Picante.ReadProg.Basic

namespace ReadProg

variable {D E X Y : Type} {σ τ : Env D E X Y}

/-- What the errors of an evaluator are accounted as. -/
inductive Account where
  | values
  | failures
  | answers
  deriving DecidableEq, Repr

namespace Account

/-- The error `e` reported for `q` is accounted for. -/
def Fails (acc : Account) (σ : Env D E X Y) (q : D) (e : E) : Prop :=
  match acc with
  | values => True
  | failures => Doomed σ q e
  | answers => Yields σ q (.error e)

/-- The programs an account is fit for. -/
def Suits (acc : Account) (body : D → Prog D E X Y) : Prop :=
  acc ≠ answers → ∀ q, (body q).Propagates

/-- `p` has become `p'` on answers that are all right, and none of them an error unless errors
are answers. -/
def Reads (acc : Account) (σ : Env D E X Y) (p : Prog D E X Y) (obs : Obs D E X)
    (p' : Prog D E X Y) : Prop :=
  Follows p obs p' ∧
    ∀ da ∈ obs, Yields σ da.1 da.2 ∧ (acc ≠ answers → ∃ x, da.2 = .ok x)

variable {acc : Account}

theorem Fails.mono (hστ : σ.Extends τ) {q : D} {e : E} (h : acc.Fails σ q e) :
    acc.Fails τ q e := by
  cases acc with
  | values => trivial
  | failures => exact Doomed.mono hστ h
  | answers => exact Yields.mono hστ h

theorem Reads.refl (p : Prog D E X Y) : acc.Reads σ p [] p :=
  ⟨Follows.refl p, fun _ h => absurd h List.not_mem_nil⟩

theorem Reads.mono (hστ : σ.Extends τ) {p p' : Prog D E X Y} {obs : Obs D E X}
    (h : acc.Reads σ p obs p') : acc.Reads τ p obs p' :=
  ⟨h.1, fun da hda => ⟨(h.2 da hda).1.mono hστ, (h.2 da hda).2⟩⟩

/-- One more right answer. -/
theorem Reads.snoc {p : Prog D E X Y} {obs : Obs D E X} {d : D}
    {k : Except E X → Prog D E X Y} (h : acc.Reads σ p obs (.read d k)) {a : Except E X}
    (ha : Yields σ d a) (hok : acc ≠ answers → ∃ x, a = .ok x) :
    acc.Reads σ p (obs ++ [(d, a)]) (k a) := by
  refine ⟨h.1.snoc a, ?_⟩
  intro da hda
  rcases List.mem_append.mp hda with hda | hda
  · exact h.2 da hda
  · obtain rfl := List.mem_singleton.mp hda
    exact ⟨ha, hok⟩

/-- The first part of what was read. -/
theorem Reads.take (acc : Account) (σ : Env D E X Y) {p p' : Prog D E X Y}
    {pre post : Obs D E X} {d : D} {a : Except E X}
    (h : Follows p (pre ++ (d, a) :: post) p')
    (hpre : ∀ da ∈ pre, Yields σ da.1 da.2 ∧ (acc ≠ answers → ∃ x, da.2 = .ok x)) :
    ∃ k, acc.Reads σ p pre (.read d k) := by
  obtain ⟨k, hk⟩ := h.read_at
  exact ⟨k, hk, hpre⟩

/-- Where errors are no answers, what was read makes the next read a call. -/
theorem Reads.okReads (hacc : acc ≠ answers) {p p' : Prog D E X Y} {obs : Obs D E X}
    (h : acc.Reads σ p obs p') : OkReads σ p obs p' :=
  ⟨h.1, fun da hda => ⟨(h.2 da hda).1, (h.2 da hda).2 hacc⟩⟩

theorem Reads.calls (hacc : acc ≠ answers) {q t : D} {obs : Obs D E X}
    {k : Except E X → Prog D E X Y} (ht : σ.derived t = true)
    (h : acc.Reads σ (σ.body q) obs (.read t k)) : Calls σ q t :=
  ⟨ht, obs, k, h.okReads hacc⟩

/-- A program that ended with a value yields it. -/
theorem Reads.yields {q : D} {obs : Obs D E X} {out : Except E Y} (hq : σ.derived q = true)
    (h : acc.Reads σ (σ.body q) obs (.done out)) : Yields σ q (out.map σ.embed) :=
  Yields.of_follows hq h.1 fun da hda => (h.2 da hda).1

/-- **An error a program ends with is accounted for.** -/
theorem Reads.fails {q : D} {obs : Obs D E X} {e : E} (hq : σ.derived q = true)
    (h : acc.Reads σ (σ.body q) obs (.done (.error e))) : acc.Fails σ q e := by
  cases acc with
  | values => trivial
  | failures => exact .fails (h.okReads (by decide))
  | answers => exact h.yields hq

/-- **An error of a read is an answer, or the program passes on an error that is accounted
for.** -/
theorem Reads.read_error (hsuits : acc.Suits σ.body) {q t : D} {obs : Obs D E X}
    {k : Except E X → Prog D E X Y} (ht : σ.derived t = true)
    (h : acc.Reads σ (σ.body q) obs (.read t k)) {e : E} (he : acc.Fails σ t e) :
    acc = answers ∧ acc.Reads σ (σ.body q) (obs ++ [(t, .error e)]) (k (.error e)) ∨
      acc ≠ answers ∧ ∃ e', k (.error e) = .done (.error e') ∧ acc.Fails σ q e' := by
  cases acc with
  | values =>
    obtain ⟨e', he'⟩ := ((hsuits nofun q).follows h.1).1 e
    exact .inr ⟨nofun, e', he', trivial⟩
  | failures =>
    obtain ⟨e', he'⟩ := ((hsuits nofun q).follows h.1).1 e
    exact .inr ⟨nofun, e', he', .maps ht (h.okReads (by decide)) he he'⟩
  | answers => exact .inl ⟨rfl, h.snoc he fun hne => absurd rfl hne⟩

/-- **An error of a key that `q` calls is one of `q` as it stands**, unless errors are
answers. -/
theorem Reads.check_error (hacc : acc ≠ answers) {q t : D} {obs : Obs D E X}
    {k : Except E X → Prog D E X Y} (ht : σ.derived t = true)
    (h : acc.Reads σ (σ.body q) obs (.read t k)) {e : E} (he : acc.Fails σ t e) :
    acc.Fails σ q e := by
  cases acc with
  | values => trivial
  | failures => exact .calls (h.calls (by decide) ht) he
  | answers => exact absurd rfl hacc

/-- **A key that calls itself fails**, unless errors are answers. -/
theorem fails_of_loop (hacc : acc ≠ answers) {q : D} {e : E}
    (h : acc = failures → Relation.TransGen (Calls σ) q q) : acc.Fails σ q e := by
  cases acc with
  | values => trivial
  | failures => exact .loops (h rfl)
  | answers => exact absurd rfl hacc

end Account

end ReadProg

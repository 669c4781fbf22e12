/-
# Programs over reads, and what they evaluate to

A cached computation is, seen from its cache, a program that reads keys one after another and
then ends with a value or an error.  Some keys are *base* keys, whose content an environment
holds; the others are *derived*: their content is the outcome of their own program.  This
module fixes the vocabulary every caching argument needs.

* `Prog` -- a program: its next read, with the continuation on the answer, or its outcome.
* `Follows p obs p'` -- `p`, given the answers `obs`, has become `p'`; `Prog.Rest` -- one answer.
* `Evaluates`, `Yields` -- the big-step meaning over an environment, without any cache.
* `Calls`, `Doomed` -- why an evaluation fails: the program ends with an error, a read it
  makes fails, or the evaluation runs into itself.

The meaning is a function of the environment (`Evaluates.functional`, `Yields.functional`) and
grows with it (`Yields.mono`): an answer stays right when more base keys get a content.
-/
import Mathlib.Logic.Relation

namespace ReadProg

variable {D E X Y : Type}

/-! ## 1. Programs and their observations -/

/-- A program that reads keys `D`, each answered by an error `E` or a content `X`, and ends
with an error or a value `Y`. -/
inductive Prog (D E X Y : Type) where
  | done (out : Except E Y)
  | read (d : D) (k : Except E X → Prog D E X Y)

/-- What a program has observed so far: the keys it read, each with its answer, in order. -/
abbrev Obs (D E X : Type) := List (D × Except E X)

/-- `Follows p obs p'`: given the answers `obs` to its first reads, `p` continues as `p'`. -/
def Follows : Prog D E X Y → Obs D E X → Prog D E X Y → Prop
  | p, [], p' => p = p'
  | .read d k, (d', a) :: obs, p' => d = d' ∧ Follows (k a) obs p'
  | .done _, _ :: _, _ => False

@[simp] theorem follows_nil {p p' : Prog D E X Y} : Follows p [] p' ↔ p = p' := by
  cases p <;> rfl

@[simp] theorem follows_read_cons {d d' : D} {k : Except E X → Prog D E X Y} {a : Except E X}
    {obs : Obs D E X} {p' : Prog D E X Y} :
    Follows (.read d k) ((d', a) :: obs) p' ↔ d = d' ∧ Follows (k a) obs p' := Iff.rfl

@[simp] theorem follows_done_cons {out : Except E Y} {da : D × Except E X} {obs : Obs D E X}
    {p' : Prog D E X Y} : ¬ Follows (.done out) (da :: obs) p' := fun h => h

/-- A program is what it is before any answer. -/
theorem Follows.refl (p : Prog D E X Y) : Follows p [] p := follows_nil.mpr rfl

/-- Observations split: what follows a concatenation passes through the program in between. -/
theorem follows_append {obs obs' : Obs D E X} {p p' : Prog D E X Y} :
    Follows p (obs ++ obs') p' ↔ ∃ m, Follows p obs m ∧ Follows m obs' p' := by
  induction obs generalizing p with
  | nil => simp
  | cons da obs ih =>
    obtain ⟨d', a⟩ := da
    cases p with
    | done out => simp
    | read d k =>
      simp only [List.cons_append, follows_read_cons, ih]
      constructor
      · rintro ⟨hd, m, h, h'⟩
        exact ⟨m, ⟨hd, h⟩, h'⟩
      · rintro ⟨m, ⟨hd, h⟩, h'⟩
        exact ⟨hd, m, h, h'⟩

/-- One more answer extends the observations at their end. -/
theorem Follows.snoc {p : Prog D E X Y} {obs : Obs D E X} {d : D}
    {k : Except E X → Prog D E X Y} (h : Follows p obs (.read d k)) (a : Except E X) :
    Follows p (obs ++ [(d, a)]) (k a) :=
  follows_append.mpr ⟨.read d k, h, rfl, Follows.refl _⟩

/-- **Answers determine the program.** -/
theorem Follows.functional {obs : Obs D E X} {p m m' : Prog D E X Y} (h : Follows p obs m)
    (h' : Follows p obs m') : m = m' := by
  induction obs generalizing p with
  | nil => exact (follows_nil.mp h).symm.trans (follows_nil.mp h')
  | cons da obs ih =>
    obtain ⟨d', a⟩ := da
    cases p with
    | done out => exact absurd h follows_done_cons
    | read d k => exact ih (follows_read_cons.mp h).2 (follows_read_cons.mp h').2

/-- A program whose observations start with `d` starts by reading `d`. -/
theorem Follows.head_read {p p' : Prog D E X Y} {d : D} {a : Except E X} {obs : Obs D E X}
    (h : Follows p ((d, a) :: obs) p') : ∃ k, p = .read d k ∧ Follows (k a) obs p' := by
  cases p with
  | done out => exact absurd h follows_done_cons
  | read d' k =>
    obtain ⟨rfl, hk⟩ := follows_read_cons.mp h
    exact ⟨k, rfl, hk⟩

/-- **Where the observations mention `d`, the program reads `d`.** -/
theorem Follows.read_at {p p' : Prog D E X Y} {pre post : Obs D E X} {d : D} {a : Except E X}
    (h : Follows p (pre ++ (d, a) :: post) p') : ∃ k, Follows p pre (.read d k) := by
  obtain ⟨m, hpre, hm⟩ := follows_append.mp h
  obtain ⟨k, rfl, -⟩ := hm.head_read
  exact ⟨k, hpre⟩

/-- `p'` is what is left of `p` when its next read has been answered. -/
def Prog.Rest (p' p : Prog D E X Y) : Prop := ∃ d k a, p = .read d k ∧ p' = k a

/-- **Whatever it is answered, a program comes to its end.** -/
theorem wellFounded_rest :
    WellFounded (Prog.Rest : Prog D E X Y → Prog D E X Y → Prop) := by
  refine ⟨fun p => ?_⟩
  induction p with
  | done out => exact Acc.intro _ fun p' ⟨d, k, a, h, _⟩ => by cases h
  | read d k ih =>
    refine Acc.intro _ fun p' ⟨d', k', a, h, hp'⟩ => ?_
    cases h
    exact hp' ▸ ih a

/-- The program ends with an error as soon as one of its reads is answered by one. -/
def Prog.Propagates : Prog D E X Y → Prop
  | .done _ => True
  | .read _ k => (∀ e, ∃ e', k (.error e) = .done (.error e')) ∧ ∀ x, (k (.ok x)).Propagates

theorem Prog.Propagates.follows {p p' : Prog D E X Y} {obs : Obs D E X} (hp : p.Propagates)
    (h : Follows p obs p') : p'.Propagates := by
  induction obs generalizing p with
  | nil => exact follows_nil.mp h ▸ hp
  | cons da obs ih =>
    obtain ⟨d, a⟩ := da
    obtain ⟨k, rfl, hk⟩ := h.head_read
    refine ih ?_ hk
    cases a with
    | ok x => exact hp.2 x
    | error e =>
      obtain ⟨e', he'⟩ := hp.1 e
      exact he' ▸ trivial

/-- A propagating program that ended with a value has seen no error. -/
theorem Prog.Propagates.obs_ok {p : Prog D E X Y} {obs : Obs D E X} {y : Y}
    (hp : p.Propagates) (h : Follows p obs (.done (.ok y))) :
    ∀ da ∈ obs, ∃ x, da.2 = .ok x := by
  induction obs generalizing p with
  | nil => exact fun da hda => absurd hda List.not_mem_nil
  | cons da obs ih =>
    obtain ⟨d, a⟩ := da
    obtain ⟨k, rfl, hk⟩ := h.head_read
    cases a with
    | ok x =>
      intro da hda
      rcases List.mem_cons.mp hda with rfl | hda
      · exact ⟨x, rfl⟩
      · exact ih (hp.2 x) hk da hda
    | error e =>
      obtain ⟨e', he'⟩ := hp.1 e
      rw [he'] at hk
      cases obs with
      | nil => cases (follows_nil.mp hk)
      | cons _ _ => exact absurd hk follows_done_cons

/-! ## 2. The meaning of a program over an environment -/

/-- What programs run over: which keys are derived, the content of the base keys (`none` where
there is none yet), the program of a derived key, and how its value is read as a content. -/
structure Env (D E X Y : Type) where
  derived : D → Bool
  base : D → Option X
  embed : Y → X
  body : D → Prog D E X Y

/-- The outcome of a program over an environment, every derived key being evaluated anew. -/
inductive Evaluates (σ : Env D E X Y) : Prog D E X Y → Except E Y → Prop
  | done (out : Except E Y) : Evaluates σ (.done out) out
  | base {d : D} {k : Except E X → Prog D E X Y} {x : X} {out : Except E Y}
      (hd : σ.derived d = false) (hx : σ.base d = some x) (h : Evaluates σ (k (.ok x)) out) :
      Evaluates σ (.read d k) out
  | derived {d : D} {k : Except E X → Prog D E X Y} {b out : Except E Y}
      (hd : σ.derived d = true) (hb : Evaluates σ (σ.body d) b)
      (h : Evaluates σ (k (b.map σ.embed)) out) : Evaluates σ (.read d k) out

/-- The answer a read of `d` has over an environment. -/
inductive Yields (σ : Env D E X Y) (d : D) : Except E X → Prop
  | base {x : X} (hd : σ.derived d = false) (hx : σ.base d = some x) : Yields σ d (.ok x)
  | derived {b : Except E Y} (hd : σ.derived d = true) (hb : Evaluates σ (σ.body d) b) :
      Yields σ d (b.map σ.embed)

variable {σ τ : Env D E X Y}

theorem evaluates_read {d : D} {k : Except E X → Prog D E X Y} {out : Except E Y} :
    Evaluates σ (.read d k) out ↔ ∃ a, Yields σ d a ∧ Evaluates σ (k a) out := by
  constructor
  · intro h
    cases h with
    | base hd hx h => exact ⟨_, .base hd hx, h⟩
    | derived hd hb h => exact ⟨_, .derived hd hb, h⟩
  · rintro ⟨a, ha, h⟩
    cases ha with
    | base hd hx => exact .base hd hx h
    | derived hd hb => exact .derived hd hb h

/-- **A program has at most one outcome.** -/
theorem Evaluates.functional {p : Prog D E X Y} {out out' : Except E Y}
    (h : Evaluates σ p out) (h' : Evaluates σ p out') : out = out' := by
  induction h generalizing out' with
  | done out => cases h'; rfl
  | base hd hx h ih =>
    cases h' with
    | base hd' hx' h' =>
      obtain rfl := Option.some.inj (hx.symm.trans hx')
      exact ih h'
    | derived hd' hb' h' => simp [hd] at hd'
  | derived hd hb h ihb ih =>
    cases h' with
    | base hd' hx' h' => simp [hd] at hd'
    | derived hd' hb' h' =>
      obtain rfl := ihb hb'
      exact ih h'

/-- **A key has at most one answer.** -/
theorem Yields.functional {d : D} {a a' : Except E X} (h : Yields σ d a)
    (h' : Yields σ d a') : a = a' := by
  cases h with
  | base hd hx =>
    cases h' with
    | base hd' hx' => rw [Option.some.inj (hx.symm.trans hx')]
    | derived hd' hb' => simp [hd] at hd'
  | derived hd hb =>
    cases h' with
    | base hd' hx' => simp [hd] at hd'
    | derived hd' hb' => rw [hb.functional hb']

/-- The answer of a derived key is the outcome of its program. -/
theorem Yields.outcome {d : D} {a : Except E X} (h : Yields σ d a) (hd : σ.derived d = true) :
    ∃ b, Evaluates σ (σ.body d) b ∧ a = b.map σ.embed := by
  cases h with
  | base hd' hx => simp [hd] at hd'
  | derived _ hb => exact ⟨_, hb, rfl⟩

/-- The value of a derived key is the value its program ends with. -/
theorem Yields.value {d : D} {x : X} (h : Yields σ d (.ok x)) (hd : σ.derived d = true) :
    ∃ y, Evaluates σ (σ.body d) (.ok y) ∧ σ.embed y = x := by
  obtain ⟨b, hb, hx⟩ := h.outcome hd
  cases b with
  | ok y => exact ⟨y, hb, (Except.ok.inj hx).symm⟩
  | error e => cases hx

/-- The content of a base key is what the environment holds. -/
theorem Yields.content {d : D} {a : Except E X} (h : Yields σ d a) (hd : σ.derived d = false) :
    ∃ x, σ.base d = some x ∧ a = .ok x := by
  cases h with
  | base _ hx => exact ⟨_, hx, rfl⟩
  | derived hd' _ => simp [hd] at hd'

/-- Right answers carry a program to its outcome. -/
theorem Evaluates.of_follows {p p' : Prog D E X Y} {obs : Obs D E X} {out : Except E Y}
    (h : Follows p obs p') (hobs : ∀ da ∈ obs, Yields σ da.1 da.2)
    (h' : Evaluates σ p' out) : Evaluates σ p out := by
  induction obs generalizing p with
  | nil => exact follows_nil.mp h ▸ h'
  | cons da obs ih =>
    obtain ⟨d, a⟩ := da
    obtain ⟨k, rfl, hk⟩ := h.head_read
    refine evaluates_read.mpr ⟨a, hobs _ (List.mem_cons_self ..), ?_⟩
    exact ih hk fun da hda => hobs da (List.mem_cons_of_mem _ hda)

/-- A derived key whose program ends with a value after right answers yields that value. -/
theorem Yields.of_follows {d : D} {obs : Obs D E X} {out : Except E Y}
    (hd : σ.derived d = true) (h : Follows (σ.body d) obs (.done out))
    (hobs : ∀ da ∈ obs, Yields σ da.1 da.2) : Yields σ d (out.map σ.embed) :=
  .derived hd (Evaluates.of_follows h hobs (.done out))

/-! ## 3. Environments that only grow -/

/-- `τ` extends `σ`: the same programs, and every content of `σ` kept. -/
structure Env.Extends (σ τ : Env D E X Y) : Prop where
  derived : τ.derived = σ.derived
  embed : τ.embed = σ.embed
  body : τ.body = σ.body
  base : ∀ d x, σ.base d = some x → τ.base d = some x

theorem Env.Extends.refl (σ : Env D E X Y) : σ.Extends σ :=
  ⟨rfl, rfl, rfl, fun _ _ h => h⟩

theorem Evaluates.mono (hστ : σ.Extends τ) {p : Prog D E X Y} {out : Except E Y}
    (h : Evaluates σ p out) : Evaluates τ p out := by
  induction h with
  | done out => exact .done out
  | base hd hx h ih => exact .base (hστ.derived ▸ hd) (hστ.base _ _ hx) ih
  | derived hd hb h ihb ih =>
    refine .derived (hστ.derived ▸ hd) (hστ.body ▸ ihb) ?_
    rw [hστ.embed]
    exact ih

/-- **Answers stay right when the environment grows.** -/
theorem Yields.mono (hστ : σ.Extends τ) {d : D} {a : Except E X} (h : Yields σ d a) :
    Yields τ d a := by
  cases h with
  | base hd hx => exact .base (hστ.derived ▸ hd) (hστ.base _ _ hx)
  | derived hd hb =>
    rw [← hστ.embed]
    exact .derived (hστ.derived ▸ hd) (hστ.body ▸ hb.mono hστ)

/-! ## 4. Why an evaluation fails -/

/-- `p` reaches `p'` on answers that are all right and none of them an error. -/
def OkReads (σ : Env D E X Y) (p : Prog D E X Y) (obs : Obs D E X) (p' : Prog D E X Y) : Prop :=
  Follows p obs p' ∧ ∀ da ∈ obs, Yields σ da.1 da.2 ∧ ∃ x, da.2 = .ok x

theorem OkReads.refl (p : Prog D E X Y) : OkReads σ p [] p :=
  ⟨Follows.refl p, fun _ h => absurd h List.not_mem_nil⟩

theorem OkReads.snoc {p : Prog D E X Y} {obs : Obs D E X} {d : D}
    {k : Except E X → Prog D E X Y} (h : OkReads σ p obs (.read d k)) {x : X}
    (hx : Yields σ d (.ok x)) : OkReads σ p (obs ++ [(d, .ok x)]) (k (.ok x)) := by
  refine ⟨h.1.snoc _, fun da hda => ?_⟩
  rcases List.mem_append.mp hda with hda | hda
  · exact h.2 da hda
  · obtain rfl := List.mem_singleton.mp hda
    exact ⟨hx, x, rfl⟩

theorem OkReads.mono (hστ : σ.Extends τ) {p p' : Prog D E X Y} {obs : Obs D E X}
    (h : OkReads σ p obs p') : OkReads τ p obs p' :=
  ⟨h.1, fun da hda => ⟨(h.2 da hda).1.mono hστ, (h.2 da hda).2⟩⟩

/-- `q` calls `t`: after right answers, the program of `q` reads the derived key `t`. -/
def Calls (σ : Env D E X Y) (q t : D) : Prop :=
  σ.derived t = true ∧ ∃ obs k, OkReads σ (σ.body q) obs (.read t k)

theorem Calls.mono (hστ : σ.Extends τ) {q t : D} (h : Calls σ q t) : Calls τ q t := by
  obtain ⟨ht, obs, k, hr⟩ := h
  exact ⟨hστ.derived ▸ ht, obs, k, hστ.body ▸ hr.mono hστ⟩

/-- `q` cannot be evaluated, and an access to it may report `e`: its own program ends with
`e`, or a key it calls is doomed (whose error it passes on as it stands or maps), or it calls
itself through some chain of calls (then the report depends on where the chain was entered). -/
inductive Doomed (σ : Env D E X Y) : D → E → Prop
  | fails {q : D} {obs : Obs D E X} {e : E} (h : OkReads σ (σ.body q) obs (.done (.error e))) :
      Doomed σ q e
  | loops {q : D} {e : E} (h : Relation.TransGen (Calls σ) q q) : Doomed σ q e
  | calls {q t : D} {e : E} (h : Calls σ q t) (ht : Doomed σ t e) : Doomed σ q e
  | maps {q t : D} {obs : Obs D E X} {k : Except E X → Prog D E X Y} {e e' : E}
      (htd : σ.derived t = true) (h : OkReads σ (σ.body q) obs (.read t k))
      (ht : Doomed σ t e) (hk : k (.error e) = .done (.error e')) : Doomed σ q e'

theorem Doomed.mono (hστ : σ.Extends τ) {q : D} {e : E} (h : Doomed σ q e) : Doomed τ q e := by
  induction h with
  | fails h => exact .fails (hστ.body ▸ h.mono hστ)
  | loops h => exact .loops (h.lift id fun _ _ hc => hc.mono hστ)
  | calls h _ ih => exact .calls (h.mono hστ) ih
  | maps htd h _ hk ih => exact .maps (hστ.derived ▸ htd) (hστ.body ▸ h.mono hστ) ih hk

/-- The evaluation of `q` runs into no cycle: no key it calls, directly or not, calls itself. -/
def Acyclic (σ : Env D E X Y) (q : D) : Prop :=
  ∀ t, Relation.ReflTransGen (Calls σ) q t → ¬ Relation.TransGen (Calls σ) t t

/-- The program passes on an error of a read as it stands. -/
def Prog.Forwards : Prog D E X Y → Prop
  | .done _ => True
  | .read _ k => (∀ e, k (.error e) = .done (.error e)) ∧ ∀ x, (k (.ok x)).Forwards

theorem Prog.Forwards.propagates {p : Prog D E X Y} (hp : p.Forwards) : p.Propagates := by
  induction p with
  | done out => trivial
  | read d k ih => exact ⟨fun e => ⟨e, hp.1 e⟩, fun x => ih _ (hp.2 x)⟩

/-- A forwarding program on right answers still forwards. -/
theorem OkReads.forwards {p p' : Prog D E X Y} {obs : Obs D E X} (hp : p.Forwards)
    (h : OkReads σ p obs p') : p'.Forwards := by
  induction obs generalizing p with
  | nil => exact follows_nil.mp h.1 ▸ hp
  | cons da obs ih =>
    obtain ⟨d, a⟩ := da
    obtain ⟨hf, hok⟩ := h
    obtain ⟨k, rfl, hk⟩ := hf.head_read
    obtain ⟨-, x, hx⟩ := hok _ (List.mem_cons_self ..)
    obtain rfl : a = .ok x := hx
    exact ih (hp.2 x) ⟨hk, fun da hda => hok da (List.mem_cons_of_mem _ hda)⟩

/-- **Without a cycle, a doomed key has an error of its own**: where programs forward the
errors of their reads, every report is the one error the evaluation ends with. -/
theorem Doomed.yields_error (hfwd : ∀ d, (σ.body d).Forwards) {q : D} {e : E}
    (hd : σ.derived q = true) (hac : Acyclic σ q) (h : Doomed σ q e) :
    Yields σ q (.error e) := by
  have through : ∀ {q t : D} {obs : Obs D E X} {k : Except E X → Prog D E X Y} {e : E},
      σ.derived q = true → OkReads σ (σ.body q) obs (.read t k) →
        Yields σ t (.error e) → Yields σ q (.error e) := by
    intro q t obs k e hq hr ht
    have hk : k (.error e) = .done (.error e) := (hr.forwards (hfwd q)).1 e
    have hrest : Evaluates σ (.read t k) (.error e) :=
      evaluates_read.mpr ⟨_, ht, hk ▸ .done _⟩
    exact .derived hq (Evaluates.of_follows hr.1 (fun da hda => (hr.2 da hda).1) hrest)
  have below : ∀ {q t : D}, Acyclic σ q → Calls σ q t → Acyclic σ t :=
    fun hq hc u hu => hq u (.head hc hu)
  induction h with
  | fails h =>
    have hy := Yields.of_follows hd h.1 fun da hda => (h.2 da hda).1
    exact hy
  | loops h => exact absurd h (hac _ .refl)
  | calls h _ ih =>
    obtain ⟨ht, obs, k, hr⟩ := h
    exact through hd hr (ih ht (below hac ⟨ht, obs, k, hr⟩))
  | maps htd h _ hk ih =>
    have hke := (h.forwards (hfwd _)).1
    rw [hke] at hk
    cases hk
    exact through hd h (ih htd (below hac ⟨htd, _, _, h⟩))

end ReadProg

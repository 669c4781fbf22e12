/-
# The evaluator without a cache

`evaluate` runs the program of a key from nothing: every derived read is evaluated in turn, on
a stack of the keys being evaluated, and a key met again on its own stack is an error.  It is
executable; the fuel bounds the depth of the stack only, so an answer does not depend on it
(`evaluate_mono`).

Two theorems tie it to the big-step meaning of `Basic.lean`.

* `evaluate_of_evaluates` -- a key that has an outcome is evaluated to it.  The stack check
  never strikes: a derivation of least height contains no key inside its own derivation.
* `Doomed.evaluate_error` -- a doomed key is evaluated to an error, where programs propagate
  errors.
-/
import Picante.ReadProg.Basic
import Mathlib.Logic.Basic

namespace ReadProg

variable {D E X Y : Type}

/-! ## 1. The evaluator -/

/-- Runs a program against a partial answering function. -/
def Prog.runWith (answer : D → Option (Except E X)) : Prog D E X Y → Option (Except E Y)
  | .done out => some out
  | .read d k =>
    match answer d with
    | none => none
    | some a => (k a).runWith answer

/-- The errors an evaluator raises by itself: a key met on its own stack (given innermost
first), and a base key without content. -/
structure Faults (D E : Type) where
  cycle : D → List D → E
  missing : D → E

/-- The evaluation of the derived key `q` on the stack `stack` (innermost key first): `none`
where the fuel does not reach. -/
def evaluate [DecidableEq D] (σ : Env D E X Y) (φ : Faults D E) :
    Nat → List D → D → Option (Except E Y)
  | 0, _, _ => none
  | fuel + 1, stack, q =>
    if q ∈ stack then some (.error (φ.cycle q stack))
    else
      (σ.body q).runWith fun d =>
        if σ.derived d then (evaluate σ φ fuel (q :: stack) d).map (·.map σ.embed)
        else
          match σ.base d with
          | some x => some (.ok x)
          | none => some (.error (φ.missing d))

/-- The answer the evaluator gives to a read of `d` below the stack `stack`. -/
def answer [DecidableEq D] (σ : Env D E X Y) (φ : Faults D E) (fuel : Nat) (stack : List D)
    (d : D) : Option (Except E X) :=
  if σ.derived d then (evaluate σ φ fuel stack d).map (·.map σ.embed)
  else
    match σ.base d with
    | some x => some (.ok x)
    | none => some (.error (φ.missing d))

variable [DecidableEq D] {σ : Env D E X Y} {φ : Faults D E}

theorem evaluate_succ (fuel : Nat) (stack : List D) (q : D) :
    evaluate σ φ (fuel + 1) stack q =
      if q ∈ stack then some (.error (φ.cycle q stack))
      else (σ.body q).runWith (answer σ φ fuel (q :: stack)) := rfl

/-- Outside its stack, a key is evaluated by running its program. -/
theorem evaluate_succ_of_notMem {fuel : Nat} {stack : List D} {q : D} (hq : q ∉ stack) :
    evaluate σ φ (fuel + 1) stack q = (σ.body q).runWith (answer σ φ fuel (q :: stack)) := by
  rw [evaluate_succ, if_neg hq]

omit [DecidableEq D] in
theorem Prog.runWith_mono {f g : D → Option (Except E X)}
    (hfg : ∀ d a, f d = some a → g d = some a) {p : Prog D E X Y} {out : Except E Y}
    (h : p.runWith f = some out) : p.runWith g = some out := by
  induction p with
  | done out' => exact h
  | read d k ih =>
    simp only [Prog.runWith] at h ⊢
    cases hf : f d with
    | none => simp [hf] at h
    | some a =>
      rw [hf] at h
      rw [hfg d a hf]
      exact ih a h

/-- **More fuel changes no answer.** -/
theorem evaluate_mono {fuel fuel' : Nat} (hle : fuel ≤ fuel') {stack : List D} {q : D}
    {out : Except E Y} (h : evaluate σ φ fuel stack q = some out) :
    evaluate σ φ fuel' stack q = some out := by
  induction fuel generalizing fuel' stack q out with
  | zero => simp [evaluate] at h
  | succ fuel ih =>
    obtain ⟨m, rfl⟩ : ∃ m, fuel' = m + 1 := ⟨fuel' - 1, by omega⟩
    rw [evaluate_succ] at h ⊢
    by_cases hq : q ∈ stack
    · simpa [hq] using h
    · rw [if_neg hq] at h ⊢
      refine Prog.runWith_mono (fun d a ha => ?_) h
      simp only [answer] at ha ⊢
      by_cases hd : σ.derived d = true
      · rw [if_pos hd] at ha ⊢
        obtain ⟨b, hb, rfl⟩ := Option.map_eq_some_iff.mp ha
        rw [ih (by omega) hb]
        rfl
      · rwa [if_neg hd] at ha ⊢

theorem answer_mono {fuel fuel' : Nat} (hle : fuel ≤ fuel') {stack : List D} {d : D}
    {a : Except E X} (h : answer σ φ fuel stack d = some a) :
    answer σ φ fuel' stack d = some a := by
  simp only [answer] at h ⊢
  by_cases hd : σ.derived d = true
  · rw [if_pos hd] at h ⊢
    obtain ⟨b, hb, rfl⟩ := Option.map_eq_some_iff.mp h
    rw [evaluate_mono hle hb]
    rfl
  · rwa [if_neg hd] at h ⊢

/-- The evaluation of a key has at most one outcome. -/
theorem evaluate_functional {fuel fuel' : Nat} {stack : List D} {q : D} {out out' : Except E Y}
    (h : evaluate σ φ fuel stack q = some out) (h' : evaluate σ φ fuel' stack q = some out') :
    out = out' := by
  have h := evaluate_mono (Nat.le_max_left fuel fuel') h
  have h' := evaluate_mono (Nat.le_max_right fuel fuel') h'
  exact Option.some.inj (h.symm.trans h')

/-! ## 2. A key that has an outcome is evaluated to it -/

/-- `Evaluates` with a bound on the height of the derivation. -/
inductive EvaluatesIn (σ : Env D E X Y) : Nat → Prog D E X Y → Except E Y → Prop
  | done (n : Nat) (out : Except E Y) : EvaluatesIn σ n (.done out) out
  | base {n : Nat} {d : D} {k : Except E X → Prog D E X Y} {x : X} {out : Except E Y}
      (hd : σ.derived d = false) (hx : σ.base d = some x)
      (h : EvaluatesIn σ n (k (.ok x)) out) : EvaluatesIn σ n (.read d k) out
  | derived {m n : Nat} {d : D} {k : Except E X → Prog D E X Y} {b out : Except E Y}
      (hmn : m < n) (hd : σ.derived d = true) (hb : EvaluatesIn σ m (σ.body d) b)
      (h : EvaluatesIn σ n (k (b.map σ.embed)) out) : EvaluatesIn σ n (.read d k) out

omit [DecidableEq D] in
theorem EvaluatesIn.evaluates {n : Nat} {p : Prog D E X Y} {out : Except E Y}
    (h : EvaluatesIn σ n p out) : Evaluates σ p out := by
  induction h with
  | done n out => exact .done out
  | base hd hx h ih => exact .base hd hx ih
  | derived hmn hd hb h ihb ih => exact .derived hd ihb ih

omit [DecidableEq D] in
theorem EvaluatesIn.mono {n n' : Nat} (hle : n ≤ n') {p : Prog D E X Y} {out : Except E Y}
    (h : EvaluatesIn σ n p out) : EvaluatesIn σ n' p out := by
  induction h with
  | done n out => exact .done n' out
  | base hd hx h ih => exact .base hd hx (ih hle)
  | derived hmn hd hb h ihb ih => exact .derived (by omega) hd hb (ih hle)

omit [DecidableEq D] in
theorem Evaluates.exists_height {p : Prog D E X Y} {out : Except E Y} (h : Evaluates σ p out) :
    ∃ n, EvaluatesIn σ n p out := by
  induction h with
  | done out => exact ⟨0, .done 0 out⟩
  | base hd hx h ih =>
    obtain ⟨n, hn⟩ := ih
    exact ⟨n, .base hd hx hn⟩
  | derived hd hb h ihb ih =>
    obtain ⟨m, hm⟩ := ihb
    obtain ⟨n, hn⟩ := ih
    exact ⟨max (m + 1) n, .derived (by omega) hd hm (hn.mono (by omega))⟩

/-- The least height at which the program of `q` has an outcome is `n`, or more. -/
def AtLeast (σ : Env D E X Y) (n : Nat) (q : D) : Prop :=
  ∀ m out, EvaluatesIn σ m (σ.body q) out → n ≤ m

/-- Reads at a height below that of every key on the stack are answered. -/
theorem runWith_of_evaluatesIn {n : Nat} {stack : List D}
    (ih : ∀ m < n, ∀ q out, EvaluatesIn σ m (σ.body q) out →
      ∃ fuel, evaluate σ φ fuel stack q = some out)
    {p : Prog D E X Y} {out : Except E Y} (h : EvaluatesIn σ n p out) :
    ∃ fuel, p.runWith (answer σ φ fuel stack) = some out := by
  induction h with
  | done n out => exact ⟨0, rfl⟩
  | base hd hx h ihk =>
    obtain ⟨fuel, hf⟩ := ihk ih
    refine ⟨fuel, ?_⟩
    simp only [Prog.runWith, answer, hd, hx, Bool.false_eq_true, if_false]
    exact hf
  | @derived m n d k b out hmn hd hb h _ ihk =>
    obtain ⟨fuel, hf⟩ := ihk ih
    obtain ⟨fuel', hf'⟩ := ih m hmn d b hb
    refine ⟨max fuel fuel', ?_⟩
    have ha : answer σ φ (max fuel fuel') stack d = some (b.map σ.embed) := by
      simp only [answer, hd, if_true]
      rw [evaluate_mono (Nat.le_max_right _ _) hf']
      rfl
    simp only [Prog.runWith, ha]
    exact Prog.runWith_mono (fun d a => answer_mono (Nat.le_max_left _ _)) hf

/-- **A key with an outcome is evaluated to it**, below every stack whose keys all need a
higher derivation.  The induction is on the height; the key goes on the stack at its least
height, so a read of it below would contradict that height. -/
theorem evaluate_of_evaluatesIn (n : Nat) : ∀ (stack : List D) (q : D) (out : Except E Y),
    EvaluatesIn σ n (σ.body q) out → (∀ s ∈ stack, AtLeast σ (n + 1) s) →
      ∃ fuel, evaluate σ φ fuel stack q = some out := by
  induction n using Nat.strongRecOn with
  | _ n ih =>
    intro stack q out h hstack
    by_cases hleast : AtLeast σ n q
    · have hq : q ∉ stack := fun hq => by
        have := hstack q hq n out h
        omega
      have hreads : ∀ m < n, ∀ t out, EvaluatesIn σ m (σ.body t) out →
          ∃ fuel, evaluate σ φ fuel (q :: stack) t = some out := by
        intro m hm t out ht
        refine ih m hm (q :: stack) t out ht ?_
        intro s hs l out' hl
        rcases List.mem_cons.mp hs with rfl | hs
        · exact Nat.lt_of_lt_of_le hm (hleast l out' hl)
        · have := hstack s hs l out' hl
          omega
      obtain ⟨fuel, hf⟩ := runWith_of_evaluatesIn hreads h
      exact ⟨fuel + 1, by rw [evaluate_succ_of_notMem hq, hf]⟩
    · -- a lower derivation exists, and has the same outcome
      simp only [AtLeast, not_forall] at hleast
      obtain ⟨m, out', h', hm⟩ := hleast
      obtain rfl := h.evaluates.functional h'.evaluates
      refine ih m (by omega) stack q out h' fun s hs l out' hl => ?_
      have := hstack s hs l out' hl
      omega

/-- **A key with an outcome is evaluated to it from nothing.** -/
theorem evaluate_of_evaluates {q : D} {out : Except E Y} (h : Evaluates σ (σ.body q) out) :
    ∃ fuel, evaluate σ φ fuel [] q = some out := by
  obtain ⟨n, hn⟩ := h.exists_height
  exact evaluate_of_evaluatesIn n [] q out hn fun _ hs => absurd hs List.not_mem_nil

/-! ## 3. A doomed key is evaluated to an error -/

/-- `r` is an error. -/
abbrev IsError {A : Type} (r : Option (Except E A)) : Prop := ∃ e, r = some (.error e)

/-- Below any stack, a right answer is found or an error is met instead (a key of the
derivation may be on the stack). -/
theorem evaluate_ok_or_error (hprop : ∀ d, (σ.body d).Propagates) {d : D} {x : X}
    (h : Yields σ d (.ok x)) (stack : List D) :
    ∃ fuel, answer σ φ fuel stack d = some (.ok x) ∨ IsError (answer σ φ fuel stack d) := by
  have run : ∀ {p : Prog D E X Y} {out : Except E Y}, Evaluates σ p out → p.Propagates →
      ∀ stack, ∃ fuel, p.runWith (answer σ φ fuel stack) = some out ∨
        IsError (p.runWith (answer σ φ fuel stack)) := by
    intro p out h
    induction h with
    | done out => exact fun _ _ => ⟨0, .inl rfl⟩
    | @base d k x out hd hx h ih =>
      intro hp stack
      obtain ⟨fuel, hf⟩ := ih (hp.2 x) stack
      have ha : answer σ φ fuel stack d = some (.ok x) := by simp [answer, hd, hx]
      exact ⟨fuel, by simpa only [Prog.runWith, ha] using hf⟩
    | @derived d k b out hd hb h ihb ih =>
      intro hp stack
      have hprog : (k (b.map σ.embed)).Propagates := by
        cases b with
        | ok y => exact hp.2 _
        | error e =>
          obtain ⟨e', he'⟩ := hp.1 e
          exact (he' : k ((Except.error e : Except E Y).map σ.embed) = _) ▸ trivial
      obtain ⟨fuel, hf⟩ := ih hprog stack
      -- the read itself: a key on the stack, or its program below the longer stack
      have hread : ∃ m, answer σ φ m stack d = some (b.map σ.embed) ∨
          IsError (answer σ φ m stack d) := by
        by_cases hmem : d ∈ stack
        · refine ⟨1, .inr ⟨φ.cycle d stack, ?_⟩⟩
          simp [answer, hd, evaluate_succ, hmem, Except.map]
        · obtain ⟨m, hm⟩ := ihb (hprop d) (d :: stack)
          refine ⟨m + 1, ?_⟩
          simp only [answer, hd, if_true, evaluate_succ_of_notMem hmem]
          rcases hm with hm | ⟨e, hm⟩
          · exact .inl (by rw [hm]; rfl)
          · exact .inr ⟨e, by rw [hm]; rfl⟩
      obtain ⟨m, hm⟩ := hread
      refine ⟨max fuel m, ?_⟩
      rcases hm with hm | ⟨e, hm⟩
      · have ha := answer_mono (Nat.le_max_right fuel m) hm
        simp only [Prog.runWith, ha]
        have hup : ∀ {r}, (k (b.map σ.embed)).runWith (answer σ φ fuel stack) = some r →
            (k (b.map σ.embed)).runWith (answer σ φ (max fuel m) stack) = some r :=
          Prog.runWith_mono fun _ _ => answer_mono (Nat.le_max_left fuel m)
        rcases hf with hf | ⟨e, hf⟩
        · exact .inl (hup hf)
        · exact .inr ⟨e, hup hf⟩
      · have ha := answer_mono (Nat.le_max_right fuel m) hm
        obtain ⟨e', he'⟩ := hp.1 e
        exact .inr ⟨e', by simp only [Prog.runWith, ha, he']⟩
  by_cases hd : σ.derived d = true
  · obtain ⟨y, hb, rfl⟩ := h.value hd
    by_cases hmem : d ∈ stack
    · refine ⟨1, .inr ⟨φ.cycle d stack, ?_⟩⟩
      simp [answer, hd, evaluate_succ, hmem, Except.map]
    · obtain ⟨m, hm⟩ := run hb (hprop d) (d :: stack)
      refine ⟨m + 1, ?_⟩
      simp only [answer, hd, if_true, evaluate_succ_of_notMem hmem]
      rcases hm with hm | ⟨e, hm⟩
      · exact .inl (by rw [hm]; rfl)
      · exact .inr ⟨e, by rw [hm]; rfl⟩
  · obtain ⟨x', hx, ha⟩ := h.content (by simpa using hd)
    cases ha
    exact ⟨0, .inl (by simp [answer, hd, hx])⟩

/-- Along right answers a program meets an error, or runs on as the program it has become. -/
theorem OkReads.runWith_error (hprop : ∀ d, (σ.body d).Propagates) {p p' : Prog D E X Y}
    {obs : Obs D E X} (h : OkReads σ p obs p') (hp : p.Propagates) (stack : List D) (fuel₀ : Nat)
    (h' : ∀ fuel ≥ fuel₀, IsError (p'.runWith (answer σ φ fuel stack))) :
    ∃ fuel₁, ∀ fuel ≥ fuel₁, IsError (p.runWith (answer σ φ fuel stack)) := by
  induction obs generalizing p with
  | nil => exact ⟨fuel₀, (follows_nil.mp h.1) ▸ h'⟩
  | cons da obs ih =>
    obtain ⟨d, a⟩ := da
    obtain ⟨hf, hok⟩ := h
    obtain ⟨k, rfl, hk⟩ := hf.head_read
    obtain ⟨hy, x, hx⟩ := hok _ (List.mem_cons_self ..)
    obtain rfl : a = .ok x := hx
    obtain ⟨fuel₁, h₁⟩ := ih ⟨hk, fun da hda => hok da (List.mem_cons_of_mem _ hda)⟩ (hp.2 x)
    obtain ⟨m, hm⟩ := evaluate_ok_or_error (φ := φ) hprop hy stack
    refine ⟨max fuel₁ m, fun fuel hge => ?_⟩
    rcases hm with hm | ⟨e, hm⟩
    · have ha := answer_mono (show m ≤ fuel by omega) hm
      simp only [Prog.runWith, ha]
      exact h₁ fuel (by omega)
    · have ha := answer_mono (show m ≤ fuel by omega) hm
      obtain ⟨e', he'⟩ := hp.1 e
      exact ⟨e', by simp only [Prog.runWith, ha, he']⟩

/-- A program whose next read fails, fails. -/
theorem runWith_read_error {t : D} {k : Except E X → Prog D E X Y}
    (hp : (Prog.read t k).Propagates) (ht : σ.derived t = true) {stack : List D} {fuel : Nat}
    (h : IsError (evaluate σ φ fuel stack t)) {fuel' : Nat} (hge : fuel' ≥ fuel) :
    IsError ((Prog.read t k).runWith (answer σ φ fuel' stack)) := by
  obtain ⟨e, he⟩ := h
  have ha : answer σ φ fuel' stack t = some (.error e) := by
    simp only [answer, ht, if_true, evaluate_mono hge he]
    rfl
  obtain ⟨e', he'⟩ := hp.1 e
  exact ⟨e', by simp only [Prog.runWith, ha, he']⟩

/-- A key fails below a stack if a key it calls fails below it, for every stack. -/
theorem Calls.evaluate_error (hprop : ∀ d, (σ.body d).Propagates) {q t : D} (h : Calls σ q t)
    {stack : List D} (hq : q ∉ stack → ∃ fuel, IsError (evaluate σ φ fuel (q :: stack) t)) :
    ∃ fuel, IsError (evaluate σ φ fuel stack q) := by
  by_cases hmem : q ∈ stack
  · exact ⟨1, φ.cycle q stack, by rw [evaluate_succ, if_pos hmem]⟩
  · obtain ⟨ht, obs, k, hr⟩ := h
    obtain ⟨fuel₀, h₀⟩ := hq hmem
    have hread := (hprop q).follows hr.1
    obtain ⟨fuel₁, h₁⟩ := hr.runWith_error hprop (hprop q) (q :: stack) fuel₀
      fun fuel hge => runWith_read_error hread ht h₀ hge
    exact ⟨fuel₁ + 1, by rw [evaluate_succ_of_notMem hmem]; exact h₁ fuel₁ (Nat.le_refl _)⟩

/-- A chain of calls into a key that is on the stack ends in an error. -/
theorem transGen_evaluate_error (hprop : ∀ d, (σ.body d).Propagates) {q t : D}
    (h : Relation.TransGen (Calls σ) t q) :
    ∀ stack : List D, q ∈ stack → ∃ fuel, IsError (evaluate σ φ fuel stack t) := by
  induction h using Relation.TransGen.head_induction_on with
  | @single t hc =>
    intro stack hq
    refine hc.evaluate_error hprop fun _ => ⟨1, φ.cycle q (t :: stack), ?_⟩
    rw [evaluate_succ, if_pos (List.mem_cons_of_mem _ hq)]
  | head hc _ ih =>
    intro stack hq
    exact hc.evaluate_error hprop fun _ => ih _ (List.mem_cons_of_mem _ hq)

/-- **A doomed key is evaluated to an error, below every stack.** -/
theorem Doomed.evaluate_error (hprop : ∀ d, (σ.body d).Propagates) {q : D} {e : E}
    (h : Doomed σ q e) : ∀ stack : List D, ∃ fuel, IsError (evaluate σ φ fuel stack q) := by
  induction h with
  | @fails q obs e h =>
    intro stack
    by_cases hmem : q ∈ stack
    · exact ⟨1, φ.cycle q stack, by rw [evaluate_succ, if_pos hmem]⟩
    · obtain ⟨fuel₁, h₁⟩ := h.runWith_error (φ := φ) hprop (hprop q) (q :: stack) 0
        fun fuel _ => ⟨e, rfl⟩
      exact ⟨fuel₁ + 1, by rw [evaluate_succ_of_notMem hmem]; exact h₁ fuel₁ (Nat.le_refl _)⟩
  | @loops q e h =>
    intro stack
    obtain ⟨t, hqt, htq⟩ := Relation.TransGen.head'_iff.mp h
    refine hqt.evaluate_error hprop fun _ => ?_
    rcases Relation.reflTransGen_iff_eq_or_transGen.mp htq with rfl | htq
    · exact ⟨1, φ.cycle _ _, by rw [evaluate_succ, if_pos (List.mem_cons_self ..)]⟩
    · exact transGen_evaluate_error hprop htq _ (List.mem_cons_self ..)
  | calls hc _ ih => exact fun stack => hc.evaluate_error hprop fun _ => ih _
  | maps htd hr _ hk ih =>
    exact fun stack => Calls.evaluate_error hprop ⟨htd, _, _, hr⟩ fun _ => ih _

end ReadProg

/-
# What an evaluation depends on

An evaluation that ends with a value has read some keys, the evaluation of each of these some
others, and so on (`Consults`).  Another environment with the same programs, in which the base keys
among them have the content they had, yields the same value (`Yields.of_agree`).
-/
import Picante.ReadProg.Basic

namespace ReadProg

variable {D E X Y : Type} {σ τ : Env D E X Y}

/-- `q` consults `d`: after right answers, the program of `q` reads the key `d`, base or derived. -/
def Consults (σ : Env D E X Y) (q d : D) : Prop :=
  ∃ obs k, OkReads σ (σ.body q) obs (.read d k)

/-- The key `d` is `q`, or it is read when `q` is evaluated, in the program of `q` or further
down. -/
abbrev DependsOn (σ : Env D E X Y) : D → D → Prop := Relation.ReflTransGen (Consults σ)

/-- The observations of a propagating program that ended with a value are all of keys it
consults. -/
theorem consults_of_mem {q d : D} {a : Except E X} {obs : Obs D E X} {p : Prog D E X Y}
    (h : OkReads σ (σ.body q) obs p) (hd : (d, a) ∈ obs) : Consults σ q d := by
  obtain ⟨pre, post, rfl⟩ := List.append_of_mem hd
  obtain ⟨k, hk⟩ := h.1.read_at
  exact ⟨pre, k, hk, fun da hda => h.2 da (List.mem_append_left _ hda)⟩

/-- `τ` has the programs of `σ`, and for the base keys that `q` depends on the content of `σ`. -/
structure AgreesFor (σ τ : Env D E X Y) (q : D) : Prop where
  derived : τ.derived = σ.derived
  embed : τ.embed = σ.embed
  body : τ.body = σ.body
  base : ∀ d, DependsOn σ q d → σ.derived d = false → τ.base d = σ.base d

theorem AgreesFor.consulted {q d : D} (h : AgreesFor σ τ q) (hc : Consults σ q d) :
    AgreesFor σ τ d :=
  ⟨h.derived, h.embed, h.body, fun _ hd => h.base _ (.head hc hd)⟩

/-- What is left of the program of `q`, after right answers, ends in the same value. -/
theorem Evaluates.of_agree (hprop : ∀ d, (σ.body d).Propagates) {p : Prog D E X Y}
    {out : Except E Y} (h : Evaluates σ p out) {q : D} {obs : Obs D E X}
    (hr : OkReads σ (σ.body q) obs p) (hagree : AgreesFor σ τ q) {y : Y} (hout : out = .ok y) :
    Evaluates τ p out := by
  induction h generalizing q obs y with
  | done out => exact .done out
  | @base d k x out hd hx h ih =>
    have hc : Consults σ q d := ⟨obs, k, hr⟩
    refine .base (hagree.derived ▸ hd) ?_ (ih (hr.snoc (.base hd hx)) hagree hout)
    exact (hagree.base d (.single hc) hd).trans hx
  | @derived d k b out hd hb h ihb ih =>
    have hc : Consults σ q d := ⟨obs, k, hr⟩
    -- an error of `d` would have been passed on
    have hk := ((hprop q).follows hr.1).1
    cases b with
    | error e =>
      obtain ⟨e', he'⟩ := hk e
      have hfail : Evaluates σ (k (.error e)) (.error e') := he' ▸ .done _
      have hbad : (.error e' : Except E Y) = .ok y := hfail.functional (hout ▸ h)
      cases hbad
    | ok z =>
      refine .derived (hagree.derived ▸ hd) (b := .ok z) ?_ ?_
      · rw [hagree.body]
        exact ihb (OkReads.refl _) (hagree.consulted hc) rfl
      · rw [hagree.embed]
        exact ih (hr.snoc (Yields.derived hd hb)) hagree hout

/-- **A value stays right** where the base keys it depends on keep their content. -/
theorem Yields.of_agree (hprop : ∀ d, (σ.body d).Propagates) {q : D} {x : X}
    (h : Yields σ q (.ok x)) (hagree : AgreesFor σ τ q) : Yields τ q (.ok x) := by
  cases hq : σ.derived q with
  | false =>
    obtain ⟨x', hx, heq⟩ := h.content hq
    cases heq
    exact .base (hagree.derived ▸ hq) ((hagree.base q .refl hq).trans hx)
  | true =>
    obtain ⟨y, hy, rfl⟩ := h.value hq
    have hy' : Evaluates τ (τ.body q) (.ok y) := by
      rw [hagree.body]
      exact hy.of_agree hprop (OkReads.refl _) hagree rfl
    rw [← hagree.embed]
    exact .derived (hagree.derived ▸ hq) hy'

end ReadProg

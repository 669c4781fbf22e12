/-
# Simulations between two systems

Two systems of `Trans.Run` are related by what holds between their states, and by which label of the
one goes with which label of the other.  If every step of the first is answered by a step of the
second that keeps the relation, every run is answered by a run (`Steps.simulate`).
-/
import Picante.Trans.Run
import Mathlib.Data.List.Forall2

namespace Trans

variable {S L S' L' : Type} {step : S → L → Option S} {step' : S' → L' → Option S'}
  {ok : S → L → S → Prop} {ok' : S' → L' → S' → Prop} {R : S → S' → Prop} {f : L → L' → Prop}
  {s s₁ : S} {t : S'} {ls : List L}

/-- **Every run has its counterpart**, step by step. -/
theorem Steps.simulate (h : Steps step ok s ls s₁) (hR : R s t)
    (hstep : ∀ m l m' n, R m n → step m l = some m' → ok m l m' →
      ∃ l' n', f l l' ∧ step' n l' = some n' ∧ ok' n l' n' ∧ R m' n') :
    ∃ ls' t₁, List.Forall₂ f ls ls' ∧ Steps step' ok' t ls' t₁ ∧ R s₁ t₁ := by
  induction h with
  | nil => exact ⟨[], t, .nil, .nil, hR⟩
  | snoc _ hl hok ih =>
    obtain ⟨ls', n, hls, hsteps, hm⟩ := ih
    obtain ⟨l', n', hf, hl', hok', hm'⟩ := hstep _ _ _ n hm hl hok
    exact ⟨ls' ++ [l'], n', List.rel_append hls (.cons hf .nil), .snoc hsteps hl' hok', hm'⟩

end Trans

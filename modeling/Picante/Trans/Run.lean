/-
# Runs of a partial labelled transition function

A system is a function `step : S → L → Option S`: the label names what happens next, and the
step is `none` where it cannot happen.  `run` executes a list of labels; `Steps` is the
relation, each of whose steps also meets a condition `ok`, so that "every run whose steps all
meet the condition" is a hypothesis one can write down.

The induction over runs is done here once, in these shapes.

* `Steps.invariant` -- what holds at the start and is kept by every step holds at the end.
* `Steps.with_end` -- a reflexive and transitive relation kept by every step holds between every
  state of the run and its last one; `Steps.from_prefix` is the same for the state after some of
  the labels.

`Steps.of_run` and `Steps.of_checked_run` make such a run of an executed list of labels; `shown`
collects what the steps of such a list show, one after another.
-/

namespace Trans

variable {S L : Type} {step : S → L → Option S}

/-- Executes the labels in order; `none` as soon as one of them cannot happen. -/
def run (step : S → L → Option S) : S → List L → Option S
  | s, [] => some s
  | s, l :: ls =>
    match step s l with
    | none => none
    | some s' => run step s' ls

/-- `Steps step ok s ls s'`: the labels `ls` lead from `s` to `s'`, each of the steps meeting
the condition `ok` (on the state before, the label and the state after). -/
inductive Steps (step : S → L → Option S) (ok : S → L → S → Prop) (s : S) : List L → S → Prop
  | nil : Steps step ok s [] s
  | snoc {ls : List L} {l : L} {m s' : S} (h : Steps step ok s ls m) (hl : step m l = some s')
      (hok : ok m l s') : Steps step ok s (ls ++ [l]) s'

variable {ok ok' : S → L → S → Prop} {s m s' : S} {ls ls' : List L}

theorem Steps.single {l : L} (hl : step s l = some s') (hok : ok s l s') :
    Steps step ok s [l] s' :=
  .snoc .nil hl hok

theorem Steps.trans (h : Steps step ok s ls m) (h' : Steps step ok m ls' s') :
    Steps step ok s (ls ++ ls') s' := by
  induction h' with
  | nil => rwa [List.append_nil]
  | snoc _ hl hok ih => exact List.append_assoc .. ▸ .snoc ih hl hok

/-- **An invariant holds along every run.** -/
theorem Steps.invariant {I : S → Prop} (h : Steps step ok s ls s') (hinit : I s)
    (hstep : ∀ m l m', I m → step m l = some m' → ok m l m' → I m') : I s' := by
  induction h with
  | nil => exact hinit
  | snoc _ hl hok ih => exact hstep _ _ _ ih hl hok

/-- A weaker condition is met as well. -/
theorem Steps.mono (h : Steps step ok s ls s') (himp : ∀ m l m', ok m l m' → ok' m l m') :
    Steps step ok' s ls s' := by
  induction h with
  | nil => exact .nil
  | snoc _ hl hok ih => exact .snoc ih hl (himp _ _ _ hok)

/-- A condition that every step of the run meets from states with an invariant. -/
theorem Steps.strengthen {I : S → Prop} (h : Steps step ok s ls s') (hinit : I s)
    (hstep : ∀ m l m', I m → step m l = some m' → ok m l m' → I m' ∧ ok' m l m') :
    Steps step ok' s ls s' ∧ I s' := by
  induction h with
  | nil => exact ⟨.nil, hinit⟩
  | snoc _ hl hok ih =>
    obtain ⟨hI, hok'⟩ := hstep _ _ _ ih.2 hl hok
    exact ⟨.snoc ih.1 hl hok', hI⟩

/-- Every state of a run is related to its last one by what every step relates. -/
theorem Steps.with_end {R : S → S → Prop} (h : Steps step ok s ls s') (hrefl : ∀ a, R a a)
    (htrans : ∀ a b c, R a b → R b c → R a c)
    (hstep : ∀ m l m', step m l = some m' → R m m') :
    Steps step (fun m l m' => ok m l m' ∧ R m' s') s ls s' := by
  induction h with
  | nil => exact .nil
  | snoc _ hl hok ih =>
    refine .snoc (ih.mono fun m l m' hm => ⟨hm.1, ?_⟩) hl ⟨hok, hrefl _⟩
    exact htrans _ _ _ hm.2 (hstep _ _ _ hl)

/-- An executed list of labels, each of which is checked before it happens, is a run of those
labels. -/
theorem Steps.of_checked_run (check : S → L → Bool)
    (h : run (fun s l => if check s l then step s l else none) s ls = some s') :
    Steps step (fun s l _ => l ∈ ls ∧ check s l = true) s ls s' := by
  induction ls generalizing s with
  | nil => exact Option.some.inj h ▸ .nil
  | cons l ls ih =>
    unfold run at h
    cases hc : check s l with
    | false => simp [hc] at h
    | true =>
      cases hl : step s l with
      | none => simp [hc, hl] at h
      | some m =>
        simp only [hc, hl, if_true] at h
        refine (Steps.single hl ⟨List.mem_cons_self .., hc⟩).trans ?_
        exact (ih h).mono fun _ _ _ ⟨hmem, hcheck⟩ => ⟨List.mem_cons_of_mem _ hmem, hcheck⟩

/-- An executed list of labels is a run, of those labels. -/
theorem Steps.of_run (h : run step s ls = some s') : Steps step (fun _ l _ => l ∈ ls) s ls s' :=
  (Steps.of_checked_run (fun _ _ => true) h).mono fun _ _ _ hok => hok.1

theorem run_append (step : S → L → Option S) (s : S) (ls ls' : List L) :
    run step s (ls ++ ls') = (run step s ls).bind fun m => run step m ls' := by
  induction ls generalizing s with
  | nil => rfl
  | cons l ls ih =>
    simp only [List.cons_append, run]
    cases step s l with
    | none => rfl
    | some m => exact ih m

/-- The labels of a run can be executed. -/
theorem Steps.run (h : Steps step ok s ls s') : Trans.run step s ls = some s' := by
  induction h with
  | nil => rfl
  | snoc _ hl _ ih =>
    rw [run_append, ih]
    simp only [Option.bind_some, Trans.run, hl]

/-- What every step relates, from states with an invariant, relates every state that the run has
been in to its last one. -/
theorem Steps.from_prefix {I : S → Prop} {R : S → S → Prop} (h : Steps step ok s ls s')
    (hinit : I s) (hrefl : ∀ a, R a a) (htrans : ∀ a b c, R a b → R b c → R a c)
    (hstep : ∀ m l m', I m → step m l = some m' → ok m l m' → I m' ∧ R m m') {ls₁ : List L}
    (hls₁ : ls₁ <+: ls) (hrun : Trans.run step s ls₁ = some m) : R m s' := by
  induction h with
  | nil =>
    obtain rfl := List.prefix_nil.mp hls₁
    cases hrun
    exact hrefl _
  | @snoc ls l m' s' hls hl hok ih =>
    rcases List.prefix_concat_iff.mp hls₁ with rfl | hls₁
    · rw [(Steps.snoc hls hl hok).run] at hrun
      cases hrun
      exact hrefl _
    · have hI := hls.invariant hinit fun m l m' hm hl hok => (hstep m l m' hm hl hok).1
      exact htrans _ _ _ (ih hls₁) (hstep _ _ _ hI hl hok).2

section shown

variable {A : Type} {obs : S → L → List A} {l : L}

/-- What the steps of an executed list of labels show, one after another. -/
def shown (step : S → L → Option S) (obs : S → L → List A) : S → List L → List A
  | _, [] => []
  | s, l :: ls =>
    match step s l with
    | none => []
    | some s' => obs s l ++ shown step obs s' ls

/-- A run shows what its parts do. -/
theorem shown_append (h : run step s ls = some m) (ls' : List L) :
    shown step obs s (ls ++ ls') = shown step obs s ls ++ shown step obs m ls' := by
  induction ls generalizing s with
  | nil =>
    cases h
    rfl
  | cons l ls ih =>
    simp only [List.cons_append, run, shown] at h ⊢
    cases hs : step s l with
    | none => simp [hs] at h
    | some s₁ =>
      simp only [hs] at h ⊢
      rw [ih h, List.append_assoc]

/-- The last step shows what it does in the state before it. -/
theorem shown_append_single (h : run step s ls = some m) (hl : step m l = some s') :
    shown step obs s (ls ++ [l]) = shown step obs s ls ++ obs m l := by
  rw [shown_append h]
  simp [shown, hl]

theorem Steps.shown_snoc (h : Steps step ok s ls m) (hl : step m l = some s') :
    shown step obs s (ls ++ [l]) = shown step obs s ls ++ obs m l :=
  shown_append_single h.run hl

end shown

end Trans

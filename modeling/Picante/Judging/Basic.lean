/-
# A list that is checked item by item

A check goes through a list of items in order.  Each item is known or not, and asking a known one
is answered by an error or by a date.  The check ends with a refusal at the first item that is not
known or has a date later than the bound, with an error at the first that answers with one, and
accepts the list when it gets to the end.

What is asked may answer at different times to different checks, so `answers` is a relation: the
answers that are on record.  Where no item has two of them, two checks of one list end alike
(`Judged.functional`), and further answers on record change nothing (`Judged.mono`).  A check in
progress is known by the items it has passed (`Passed`).
-/
import Mathlib.Order.Basic

namespace Judging

variable {D E R : Type} [Preorder R]

/-- The check of the list ends with a refusal or an acceptance, or with an error. -/
inductive Judged (known : D → Prop) (answers : D → Except E R → Prop) (bound : R) :
    List D → Except E Bool → Prop
  | accepted : Judged known answers bound [] (.ok true)
  | unknown {d : D} {ds : List D} (h : ¬ known d) : Judged known answers bound (d :: ds) (.ok false)
  | later {d : D} {ds : List D} {c : R} (h : known d) (ha : answers d (.ok c)) (hc : bound < c) :
      Judged known answers bound (d :: ds) (.ok false)
  | failed {d : D} {ds : List D} {e : E} (h : known d) (ha : answers d (.error e)) :
      Judged known answers bound (d :: ds) (.error e)
  | passed {d : D} {ds : List D} {c : R} {j : Except E Bool} (h : known d)
      (ha : answers d (.ok c)) (hc : c ≤ bound) (hrest : Judged known answers bound ds j) :
      Judged known answers bound (d :: ds) j


/-- A check of `all` in progress has passed the items before `rest`. -/
def Passed (known : D → Prop) (answers : D → Except E R → Prop) (bound : R) (all rest : List D) :
    Prop :=
  ∃ before, all = before ++ rest ∧ ∀ d ∈ before, known d ∧ ∃ c, answers d (.ok c) ∧ c ≤ bound

variable {known : D → Prop} {answers answers' : D → Except E R → Prop} {bound : R}
  {all rest : List D} {d : D} {j j' : Except E Bool}

/-- **Two checks of one list end alike.** -/
theorem Judged.functional (hans : ∀ d x y, answers d x → answers d y → x = y)
    (h : Judged known answers bound all j) (h' : Judged known answers bound all j') : j = j' := by
  induction h with
  | accepted => cases h'; rfl
  | unknown hd =>
    cases h' with
    | unknown _ => rfl
    | later hd' _ _ | failed hd' _ | passed hd' _ _ _ => exact absurd hd' hd
  | later hd ha hc =>
    cases h' with
    | unknown hd' => exact absurd hd hd'
    | later _ _ _ => rfl
    | failed _ ha' => cases hans _ _ _ ha ha'
    | passed _ ha' hc' _ =>
      cases hans _ _ _ ha ha'
      exact absurd (lt_of_lt_of_le hc hc') (lt_irrefl _)
  | failed hd ha =>
    cases h' with
    | unknown hd' => exact absurd hd hd'
    | later _ ha' _ | passed _ ha' _ _ => cases hans _ _ _ ha ha'
    | failed _ ha' =>
      cases hans _ _ _ ha ha'
      rfl
  | passed hd ha hc _ ih =>
    cases h' with
    | unknown hd' => exact absurd hd hd'
    | later _ ha' hc' =>
      cases hans _ _ _ ha ha'
      exact absurd (lt_of_lt_of_le hc' hc) (lt_irrefl _)
    | failed _ ha' => cases hans _ _ _ ha ha'
    | passed _ _ _ hrest => exact ih hrest

theorem Judged.mono (hans : ∀ d x, answers d x → answers' d x)
    (h : Judged known answers bound all j) : Judged known answers' bound all j := by
  induction h with
  | accepted => exact .accepted
  | unknown hd => exact .unknown hd
  | later hd ha hc => exact .later hd (hans _ _ ha) hc
  | failed hd ha => exact .failed hd (hans _ _ ha)
  | passed hd ha hc _ ih => exact .passed hd (hans _ _ ha) hc ih

theorem Passed.start : Passed known answers bound all all :=
  ⟨[], rfl, fun _ h => absurd h List.not_mem_nil⟩

theorem Passed.next {c : R} (h : Passed known answers bound all (d :: rest)) (hd : known d)
    (ha : answers d (.ok c)) (hc : c ≤ bound) : Passed known answers bound all rest := by
  obtain ⟨before, rfl, hbefore⟩ := h
  refine ⟨before ++ [d], by simp, fun d' hd' => ?_⟩
  rcases List.mem_append.mp hd' with hmem | hmem
  · exact hbefore d' hmem
  · exact List.mem_singleton.mp hmem ▸ ⟨hd, c, ha, hc⟩

/-- The rest decides. -/
theorem Passed.judged (h : Passed known answers bound all rest)
    (hrest : Judged known answers bound rest j) : Judged known answers bound all j := by
  obtain ⟨before, rfl, hbefore⟩ := h
  induction before with
  | nil => exact hrest
  | cons d before ih =>
    obtain ⟨⟨hd, c, ha, hc⟩, hbefore⟩ := List.forall_mem_cons.mp hbefore
    exact .passed hd ha hc (ih hbefore)

theorem Passed.mono (hans : ∀ d x, answers d x → answers' d x)
    (h : Passed known answers bound all rest) : Passed known answers' bound all rest := by
  obtain ⟨before, rfl, hbefore⟩ := h
  refine ⟨before, rfl, fun d hd => ?_⟩
  obtain ⟨hknown, c, ha, hc⟩ := hbefore d hd
  exact ⟨hknown, c, hans _ _ ha, hc⟩

end Judging

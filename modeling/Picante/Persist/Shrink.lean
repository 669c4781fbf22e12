/-
# What shrinking a cache drops

`shrink_cache_to_fit` drops one record after another, and counts the bytes of those that are left on
the side, in `current_record_bytes`.

* `Drop` -- what one call of the three `drop_one_record`s does: the last record of a section goes,
  and no section of a type that is dropped earlier has any records.
* `dropTo_within` -- the counter is the bytes of the records, so the loop comes within its budget,
  and takes no more passes than there are records.
* `shrink_within_limit` -- what is left fits, and a type has lost records only if none of the types
  before it has any.
-/
import Picante.Persist.Limits
import Picante.Persist.Layout
import Mathlib.Data.List.Induction

namespace Picante

/-- Records of derived queries are dropped first, then inputs, then interned values. -/
def SectionType.rank : SectionType → Nat
  | .derived => 0
  | .input => 1
  | .interned => 2

namespace CacheFile

variable {f f' f'' : CacheFile} {ty : SectionType} {len budget fuel : Nat}

/-! ## 1. One record -/

/-- One section more, and the best of those before it. -/
theorem best_concat (ss : List Section) (s : Section) (ty : SectionType) :
    best (ss ++ [s]) ty =
      if s.sectionType ≠ ty then best ss ty
      else
        match s.records.getLast?, best ss ty with
        | none, _ => best ss ty
        | some r, none => some (ss.length, r.length)
        | some r, some (_, bestLen) =>
          if r.length > bestLen then some (ss.length, r.length) else best ss ty := by
  unfold best
  rw [List.zipIdx_append, List.foldl_append, Nat.zero_add]
  rfl

/-- What `best` finds in a list of sections. -/
inductive Found (ss : List Section) (ty : SectionType) : Option (Nat × Nat) → Prop
  | none (h : ∀ s ∈ ss, s.sectionType = ty → s.records = []) : Found ss ty none
  | some {idx : Nat} {s : Section} {r : Bytes} (hs : ss[idx]? = some s) (hty : s.sectionType = ty)
      (hr : s.records.getLast? = some r) : Found ss ty (some (idx, r.length))

/-- A section of the type without records, or of another type, is passed over. -/
theorem Found.skip {ss : List Section} {s : Section} {best : Option (Nat × Nat)}
    (h : Found ss ty best) (hs : s.sectionType = ty → s.records = []) :
    Found (ss ++ [s]) ty best := by
  cases h with
  | none h =>
    refine .none fun s' hs' => ?_
    rcases List.mem_append.mp hs' with hs' | hs'
    · exact h s' hs'
    · rw [List.mem_singleton.mp hs']
      exact hs
  | some hs' hty hr =>
    exact .some ((List.getElem?_append_left (List.getElem?_eq_some_iff.mp hs').1).trans hs') hty hr

/-- An earlier section stays the best. -/
theorem Found.keep {ss : List Section} {idx n : Nat} (s : Section)
    (h : Found ss ty (.some (idx, n))) : Found (ss ++ [s]) ty (.some (idx, n)) := by
  cases h with
  | some hs hty hr =>
    exact .some ((List.getElem?_append_left (List.getElem?_eq_some_iff.mp hs).1).trans hs) hty hr

theorem found_best (ss : List Section) (ty : SectionType) : Found ss ty (best ss ty) := by
  induction ss using List.reverseRecOn with
  | nil => exact .none (by simp)
  | append_singleton ss s ih =>
    rw [best_concat]
    have hat : (ss ++ [s])[ss.length]? = some s := by simp
    split
    · next hty => exact ih.skip fun h => absurd h hty
    · next hty =>
      replace hty := not_not.mp hty
      split
      · next _ hlast => exact ih.skip fun _ => List.getLast?_eq_none_iff.mp hlast
      · next r hr _ => exact .some hat hty hr
      · next r idx bestLen hr hbest =>
        split
        · exact .some hat hty hr
        · rw [hbest] at ih ⊢
          exact ih.keep s

/-- **One record is dropped**: the last one of a section, when no section of a type that goes
first has any. -/
inductive Drop (f : CacheFile) : CacheFile → Nat → Prop
  | mk {before after : List Section} {s : Section} {records : List Bytes} {r : Bytes}
      (hsections : f.sections = before ++ s :: after) (hlast : s.records = records ++ [r])
      (hfirst : ∀ s' ∈ f.sections, s'.sectionType.rank < s.sectionType.rank → s'.records = []) :
      Drop f { f with sections := before ++ { s with records } :: after } r.length

theorem dropOneRecord_none (h : f.dropOneRecord ty = none) :
    ∀ s ∈ f.sections, s.sectionType = ty → s.records = [] := by
  have hbest : best f.sections ty = none := Option.map_eq_none_iff.mp h
  have hfound := found_best f.sections ty
  rw [hbest] at hfound
  cases hfound with
  | none h => exact h

theorem dropOneRecord_some (h : f.dropOneRecord ty = some (f', len))
    (hfirst : ∀ ty', ty'.rank < ty.rank → f.dropOneRecord ty' = none) : Drop f f' len := by
  obtain ⟨⟨idx, n⟩, hbest, heq⟩ := Option.map_eq_some_iff.mp h
  obtain ⟨rfl, rfl⟩ := Prod.mk.inj heq
  have hfound := found_best f.sections ty
  rw [hbest] at hfound
  cases hfound with
  | @some _ s r hs hty hr =>
    obtain ⟨hlt, rfl⟩ := List.getElem?_eq_some_iff.mp hs
    have hsections : f.sections =
        f.sections.take idx ++ f.sections[idx] :: f.sections.drop (idx + 1) := by
      rw [List.getElem_cons_drop, List.take_append_drop]
    obtain ⟨records, hlast⟩ := List.getLast?_eq_some_iff.mp hr
    have hdrop : f.dropLast idx = { f with
        sections := f.sections.take idx ++ { f.sections[idx] with records } ::
          f.sections.drop (idx + 1) } := by
      rw [dropLast, List.modify_eq_take_cons_drop hlt, hlast, List.dropLast_concat]
    rw [hdrop]
    refine .mk hsections hlast fun s' hs' hrank => ?_
    exact dropOneRecord_none (hfirst s'.sectionType (hty ▸ hrank)) s' hs' rfl

theorem drop_of_dropRecord (h : f.dropRecord = some (f', len)) : Drop f f' len := by
  unfold dropRecord at h
  split at h
  · next hderived =>
    refine dropOneRecord_some (hderived.trans h) fun ty' hty' => ?_
    cases ty' <;> exact absurd hty' (by decide)
  · next hderived =>
    split at h
    · next hinput =>
      refine dropOneRecord_some (hinput.trans h) fun ty' hty' => ?_
      cases ty' with
      | derived => exact hderived
      | input => exact absurd hty' (by decide)
      | interned => exact absurd hty' (by decide)
    · next hinput =>
      refine dropOneRecord_some h fun ty' hty' => ?_
      cases ty' with
      | derived => exact hderived
      | input => exact hinput
      | interned => exact absurd hty' (by decide)

/-- No record can be dropped when there is none. -/
theorem records_of_dropRecord_none (h : f.dropRecord = none) :
    ∀ s ∈ f.sections, s.records = [] := by
  unfold dropRecord at h
  split at h
  · cases h
  · next hderived =>
    split at h
    · cases h
    · next hinput =>
      intro s hs
      cases hty : s.sectionType with
      | derived => exact dropOneRecord_none hderived s hs hty
      | input => exact dropOneRecord_none hinput s hs hty
      | interned => exact dropOneRecord_none h s hs hty

/-! ## 2. The budget -/

theorem Drop.cut (h : Drop f f' len) : Cut f f' := by
  cases h with
  | @mk before after s records r hsections hlast _ =>
    refine ⟨rfl, rfl, ?_⟩
    rw [hsections]
    have hs : Section.Cut s { s with records } :=
      .of_records (hlast ▸ (List.sublist_append_left records [r]).subperm)
    exact List.rel_append (List.forall₂_same.mpr fun s _ => .refl s)
      (.cons hs (List.forall₂_same.mpr fun s _ => .refl s))

/-- The counter is kept: the bytes of the records, less those of the one that is dropped. -/
theorem Drop.recordBytes (h : Drop f f' len) : f.recordBytes - len = f'.recordBytes := by
  cases h with
  | mk hsections hlast _ =>
    simp only [CacheFile.recordBytes, hsections, hlast, List.map_append, List.map_cons,
      List.map_nil, List.sum_append, List.sum_cons, List.sum_nil]
    omega

theorem Drop.recordCount (h : Drop f f' len) : f'.recordCount + 1 = f.recordCount := by
  cases h with
  | mk hsections hlast _ =>
    simp only [CacheFile.recordCount, hsections, hlast, List.map_append, List.map_cons,
      List.sum_append, List.sum_cons, List.length_append, List.length_singleton]
    omega

theorem recordBytes_of_no_records (h : ∀ s ∈ f.sections, s.records = []) : f.recordBytes = 0 := by
  refine List.sum_eq_zero_iff_forall_eq_nat.mpr fun n hn => ?_
  obtain ⟨s, hs, rfl⟩ := List.mem_map.mp hn
  rw [h s hs]
  rfl

theorem no_records_of_recordCount (h : f.recordCount = 0) : ∀ s ∈ f.sections, s.records = [] := by
  intro s hs
  have hall := List.sum_eq_zero_iff_forall_eq_nat.mp h
  exact List.length_eq_zero_iff.mp (hall _ (List.mem_map_of_mem hs))

/-- One pass, when the budget is exceeded. -/
theorem exists_drop (h : budget < f.recordBytes) :
    ∃ f' len, f.dropRecord = some (f', len) ∧ Drop f f' len := by
  cases hdrop : f.dropRecord with
  | none =>
    have hzero := recordBytes_of_no_records (records_of_dropRecord_none hdrop)
    omega
  | some dropped => exact ⟨dropped.1, dropped.2, rfl, drop_of_dropRecord hdrop⟩

/-- The loop, as a run of drops that ends within the budget. -/
theorem dropDown_step (h : budget < f.recordBytes) (hdrop : f.dropRecord = some (f', len)) :
    dropDown budget (fuel + 1) f f.recordBytes = dropDown budget fuel f' f'.recordBytes := by
  rw [dropDown, if_neg (Nat.not_le.mpr h), hdrop]
  exact congrArg _ (drop_of_dropRecord hdrop).recordBytes

theorem dropDown_of_le (h : f.recordBytes ≤ budget) :
    dropDown budget fuel f f.recordBytes = f := by
  cases fuel with
  | zero => rfl
  | succ fuel => rw [dropDown, if_pos h]

/-- **The loop comes within its budget**: as many passes as there are records are enough. -/
theorem dropDown_within (h : f.recordCount ≤ fuel) :
    (dropDown budget fuel f f.recordBytes).recordBytes ≤ budget := by
  induction fuel generalizing f with
  | zero =>
    have hzero := recordBytes_of_no_records (no_records_of_recordCount (Nat.le_zero.mp h))
    rw [dropDown, hzero]
    exact Nat.zero_le _
  | succ fuel ih =>
    by_cases hbudget : f.recordBytes ≤ budget
    · rw [dropDown_of_le hbudget]
      exact hbudget
    · obtain ⟨f', len, heq, hdrop⟩ := exists_drop (Nat.not_le.mp hbudget)
      rw [dropDown_step (Nat.not_le.mp hbudget) heq]
      have hcount := hdrop.recordCount
      exact ih (by omega)

/-- **The loop ends**: more passes change nothing. -/
theorem dropDown_stable (h : f.recordCount ≤ fuel) :
    dropDown budget fuel f f.recordBytes = f.dropTo budget := by
  unfold dropTo
  induction fuel generalizing f with
  | zero => rw [Nat.le_zero.mp h]
  | succ fuel ih =>
    by_cases hbudget : f.recordBytes ≤ budget
    · rw [dropDown_of_le hbudget, dropDown_of_le hbudget]
    · obtain ⟨f', len, heq, hdrop⟩ := exists_drop (Nat.not_le.mp hbudget)
      have hcount := hdrop.recordCount
      rw [← hcount, dropDown_step (Nat.not_le.mp hbudget) heq,
        dropDown_step (Nat.not_le.mp hbudget) heq]
      exact ih (by omega)

theorem dropTo_within (f : CacheFile) (budget : Nat) : (f.dropTo budget).recordBytes ≤ budget :=
  dropDown_within (Nat.le_refl _)

/-! ## 3. The order -/

/-- How many records the sections of a type have. -/
def countOf (ty : SectionType) (f : CacheFile) : Nat :=
  ((f.sections.filter fun s => decide (s.sectionType = ty)).map fun s => s.records.length).sum

/-- **Records were dropped in order**: a type has lost records only if those before it have none
left. -/
def InOrder (f f' : CacheFile) : Prop :=
  ∀ ty ty', ty'.rank < ty.rank → f'.countOf ty < f.countOf ty → f'.countOf ty' = 0

theorem InOrder.refl (f : CacheFile) : InOrder f f :=
  fun _ _ _ hlt => absurd hlt (Nat.lt_irrefl _)

/-- A drop takes from one type only, and only when those before it have no records. -/
theorem Drop.countOf (h : Drop f f' len) : ∃ ty, f'.countOf ty + 1 = f.countOf ty ∧
    (∀ ty', ty' ≠ ty → f'.countOf ty' = f.countOf ty') ∧
      ∀ ty', ty'.rank < ty.rank → f.countOf ty' = 0 := by
  cases h with
  | @mk before after s records r hsections hlast hfirst =>
    refine ⟨s.sectionType, ?_, ?_, ?_⟩
    · simp only [CacheFile.countOf, hsections, List.filter_append, List.filter_cons, decide_true,
        if_true, List.map_append, List.map_cons, List.sum_append, List.sum_cons, hlast,
        List.length_append, List.length_singleton]
      omega
    · intro ty' hty'
      have hs : decide (s.sectionType = ty') = false := decide_eq_false (Ne.symm hty')
      simp only [CacheFile.countOf, hsections, List.filter_append, List.filter_cons, hs,
        Bool.false_eq_true, if_false]
    · intro ty' hrank
      refine List.sum_eq_zero_iff_forall_eq_nat.mpr fun n hn => ?_
      obtain ⟨s', hs', rfl⟩ := List.mem_map.mp hn
      obtain ⟨hs', hty'⟩ := List.mem_filter.mp hs'
      rw [hfirst s' hs' (of_decide_eq_true hty' ▸ hrank)]
      rfl

theorem InOrder.drop (h : InOrder f f') (hdrop : Drop f' f'' len) : InOrder f f'' := by
  obtain ⟨dropped, hone, hothers, hfirst⟩ := hdrop.countOf
  intro ty ty' hrank hlt
  have hle : f''.countOf ty' ≤ f'.countOf ty' := by
    by_cases hty' : ty' = dropped
    · rw [hty']
      omega
    · exact Nat.le_of_eq (hothers ty' hty')
  have hzero : f'.countOf ty' = 0 := by
    by_cases hty : ty = dropped
    · exact hfirst ty' (hty ▸ hrank)
    · rw [hothers ty hty] at hlt
      exact h ty ty' hrank hlt
  omega

theorem inOrder_dropTo (h : InOrder f f') : InOrder f (f'.dropTo budget) := by
  unfold dropTo
  generalize f'.recordCount = fuel
  induction fuel generalizing f' with
  | zero => exact h
  | succ fuel ih =>
    by_cases hbudget : f'.recordBytes ≤ budget
    · rw [dropDown_of_le hbudget]
      exact h
    · obtain ⟨f'', len, heq, hdrop⟩ := exists_drop (Nat.not_le.mp hbudget)
      rw [dropDown_step (Nat.not_le.mp hbudget) heq]
      exact ih (h.drop hdrop)

/-- Sorting the sections drops nothing. -/
theorem inOrder_sorted (f : CacheFile) :
    InOrder f { f with sections := f.sections.map Section.sortByLength } := by
  intro ty ty' _ hlt
  have hsame : countOf ty { f with sections := f.sections.map Section.sortByLength } =
      f.countOf ty := by
    simp only [CacheFile.countOf, List.filter_map, List.map_map]
    exact congrArg List.sum (List.map_congr_left fun s _ => List.length_mergeSort s.records)
  omega

end CacheFile

/-! ## 4. Shrinking -/

open CacheFile

/-- **Shrinking ends, keeps to its limit, and drops in order.**

* A loop that is given more passes than there are records changes nothing in them, and what it
  leaves is within its budget.
* Every record that is dropped is dropped in order.
* A cache that fits is left as it is.
* A cache that is returned fits, has the sections of the one that was given with some of their
  records, and has lost inputs only if no derived records are left, and interned values only if
  neither derived records nor inputs are. -/
theorem shrink_within_limit {V : Type} (C : Codec V) (maxBytes : Nat) (f : CacheFile) :
    (∀ (g : CacheFile) (budget fuel : Nat), g.recordCount ≤ fuel →
      dropDown budget fuel g g.recordBytes = g.dropTo budget ∧
        (g.dropTo budget).recordBytes ≤ budget) ∧
    (∀ (g g' : CacheFile) (len : Nat), g.dropRecord = some (g', len) → Drop g g' len) ∧
    (Fits C maxBytes f → f.shrinkToFit C maxBytes = .ok f) ∧
    ∀ f', f.shrinkToFit C maxBytes = .ok f' →
      Fits C maxBytes f' ∧ Cut f f' ∧
      (f'.countOf .input < f.countOf .input → f'.countOf .derived = 0) ∧
      (f'.countOf .interned < f.countOf .interned →
        f'.countOf .derived = 0 ∧ f'.countOf .input = 0) := by
  refine ⟨fun g budget fuel h => ⟨dropDown_stable h, dropTo_within g budget⟩,
    fun _ _ _ => drop_of_dropRecord, ?_, ?_⟩
  · rintro ⟨bytes, hencode, hle⟩
    unfold shrinkToFit
    rw [hencode]
    simp only [bind, Except.bind, if_pos hle]
    rfl
  · intro f' h
    obtain ⟨horder, hfits⟩ := shrinkToFit_ok (fun _ _ => inOrder_dropTo)
      (fun _ => inOrder_sorted f) (InOrder.refl f) h
    refine ⟨hfits, cut_shrinkToFit h, fun hlost => ?_, fun hlost => ⟨?_, ?_⟩⟩
    · exact horder .input .derived (by decide) hlost
    · exact horder .interned .derived (by decide) hlost
    · exact horder .interned .input (by decide) hlost

/-- Two inputs and two derived records. -/
def fourRecords : CacheFile :=
  ⟨formatVersion, 1, [⟨0, "i", .input, [[0], [1]]⟩, ⟨1, "q", .derived, [[0], [1, 2]]⟩]⟩

/-- The first input. -/
def oneRecord : CacheFile :=
  ⟨formatVersion, 1, [⟨0, "i", .input, [[0]]⟩, ⟨1, "q", .derived, []⟩]⟩

/-- They are in order. -/
theorem sorted_fourRecords :
    fourRecords.sections.map Section.sortByLength = fourRecords.sections := by
  have hsort : ∀ r r' : Bytes, r.length ≤ r'.length →
      [r, r'].mergeSort (fun r r' => decide (r.length ≤ r'.length)) = [r, r'] := by
    intro r r' h
    exact List.mergeSort_of_pairwise (by simpa using h)
  simp [fourRecords, Section.sortByLength, hsort]

/-- The four records take 22 bytes; at a limit of 18 one is left. -/
theorem four_records_shrunk :
    ¬ Fits (Codec.ofLayout (V := Nat) .postcard) 18 fourRecords ∧
      fourRecords.shrinkToFit (Codec.ofLayout (V := Nat) .postcard) 18 = .ok oneRecord ∧
        Fits (Codec.ofLayout (V := Nat) .postcard) 18 oneRecord ∧ Cut fourRecords oneRecord ∧
          (oneRecord.countOf .input < fourRecords.countOf .input →
            oneRecord.countOf .derived = 0) := by
  have hlong : ¬ (Layout.postcard.encode fourRecords).length ≤ 18 := by decide +kernel
  have hshrink : fourRecords.shrinkToFit (Codec.ofLayout (V := Nat) .postcard) 18 =
      .ok oneRecord := by
    unfold shrinkToFit
    rw [sorted_fourRecords, Codec.laysOut_ofLayout]
    decide +kernel
  obtain ⟨hfits, hcut, hinput, -⟩ :=
    (shrink_within_limit (Codec.ofLayout (V := Nat) .postcard) 18 fourRecords).2.2.2 _ hshrink
  refine ⟨?_, hshrink, hfits, hcut, hinput⟩
  rintro ⟨bytes, hencode, hle⟩
  rw [Codec.laysOut_ofLayout] at hencode
  cases hencode
  exact hlong hle

end Picante

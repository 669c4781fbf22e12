/-
# Saving within limits

`save_cache_with_options` drops records: those that are too large, those of a section beyond a
count, and, while the encoded file is too large, the largest record of a derived section, or of an
input section, or of an interned one.

Whatever the limits are, the file has the sections of the whole cache, in their order, and the
records of each are among those it had (`CacheFile.Cut`); which ones depends on their lengths alone.
-/
import Picante.Persist.RoundTrip
import Mathlib

namespace Picante

open Tables

variable {V : Type}

/-! ## 1. The limits -/

/-- Options for saving. -/
structure CacheSaveOptions where
  maxBytes : Option Nat
  maxRecordsPerSection : Option Nat
  maxRecordBytes : Option Nat
  deriving DecidableEq, Repr

/-- The options of `save_cache`. -/
def CacheSaveOptions.default : CacheSaveOptions := ⟨none, none, none⟩

/-- Skips the records that are too large. -/
def Section.skipOversized (maxRecordBytes : Option Nat) (s : Section) : Section :=
  match maxRecordBytes with
  | some max => { s with records := s.records.filter fun r => decide (r.length ≤ max) }
  | none => s

/-- Truncates the records to a count. -/
def Section.truncate (maxRecords : Option Nat) (s : Section) : Section :=
  match maxRecords with
  | some max => { s with records := s.records.take max }
  | none => s

/-- Sorts the records by length, the largest last. -/
def Section.sortByLength (s : Section) : Section :=
  { s with records := s.records.mergeSort fun r r' => decide (r.length ≤ r'.length) }

namespace CacheFile

/-- The bytes of all records. -/
def recordBytes (cache : CacheFile) : Nat :=
  (cache.sections.map fun s => (s.records.map List.length).sum).sum

/-- How many records there are. -/
def recordCount (cache : CacheFile) : Nat := (cache.sections.map fun s => s.records.length).sum

/-- The first section of the type whose last record is the largest, and the length of it. -/
def best (sections : List Section) (ty : SectionType) : Option (Nat × Nat) :=
  sections.zipIdx.foldl
    (fun best (s, idx) =>
      if s.sectionType ≠ ty then best
      else
        match s.records.getLast?, best with
        | none, _ => best
        | some r, none => some (idx, r.length)
        | some r, some (_, bestLen) => if r.length > bestLen then some (idx, r.length) else best)
    none

/-- Drops the last record of a section. -/
def dropLast (cache : CacheFile) (idx : Nat) : CacheFile :=
  { cache with
    sections := cache.sections.modify idx fun s => { s with records := s.records.dropLast } }

/-- `drop_one_record`: the cache without the record, and the length of it. -/
def dropOneRecord (cache : CacheFile) (ty : SectionType) : Option (CacheFile × Nat) :=
  (best cache.sections ty).map fun (idx, len) => (cache.dropLast idx, len)

/-- Drops a derived record, or an input, or an interned one. -/
def dropRecord (cache : CacheFile) : Option (CacheFile × Nat) :=
  match cache.dropOneRecord .derived with
  | some dropped => some dropped
  | none =>
    match cache.dropOneRecord .input with
    | some dropped => some dropped
    | none => cache.dropOneRecord .interned

/-- Drops records while they take more than the budget; each pass drops one, so there are no more
passes than records. -/
def dropDown (budget : Nat) : Nat → CacheFile → Nat → CacheFile
  | 0, cache, _ => cache
  | fuel + 1, cache, current =>
    if current ≤ budget then cache
    else
      match cache.dropRecord with
      | some (cache, len) => dropDown budget fuel cache (current - len)
      | none => cache

/-- Drops records of a cache down to the budget. -/
def dropTo (cache : CacheFile) (budget : Nat) : CacheFile :=
  dropDown budget cache.recordCount cache cache.recordBytes

/-- The last check of `shrink_cache_to_fit`. -/
def checkFits (C : Codec V) (maxBytes : Nat) (cache : CacheFile) : PicanteResult CacheFile := do
  let bytes ← C.encodeFile cache
  if bytes.length > maxBytes then
    throw (.cache ("cache remains too large after truncation (" ++ toString bytes.length ++ " > "
      ++ toString maxBytes ++ ")"))
  return cache

/-- The verification: a few more passes, as long as the file does not fit. -/
def verifyFits (C : Codec V) (maxBytes : Nat) : Nat → CacheFile → PicanteResult CacheFile
  | 0, cache => checkFits C maxBytes cache
  | passes + 1, cache => do
    let bytes ← C.encodeFile cache
    if bytes.length ≤ maxBytes then return cache
    let overhead := bytes.length - cache.recordBytes
    if overhead ≥ maxBytes then checkFits C maxBytes cache
    else verifyFits C maxBytes passes (cache.dropTo (maxBytes - overhead))

/-- The bytes of the file that are not records. -/
def overhead (cache : CacheFile) (length : Nat) : Nat :=
  if cache.recordBytes ≤ length then length - cache.recordBytes else length

/-- `shrink_cache_to_fit`. -/
def shrinkToFit (C : Codec V) (maxBytes : Nat) (cache : CacheFile) : PicanteResult CacheFile := do
  let bytes ← C.encodeFile cache
  if bytes.length ≤ maxBytes then return cache
  let overhead := cache.overhead bytes.length
  if overhead ≥ maxBytes then
    throw (.cache ("cache overhead (" ++ toString overhead ++ " bytes) exceeds max_bytes ("
      ++ toString maxBytes ++ ")"))
  else
    let sorted := { cache with sections := cache.sections.map Section.sortByLength }
    verifyFits C maxBytes 3 (sorted.dropTo (maxBytes - overhead))

end CacheFile

/-- `save_cache_with_options`: the content of the file it writes. -/
def Database.saveCacheWithOptions (db : Database V) (o : Order) (C : Codec V)
    (ingredients : List PersistableIngredient) (options : CacheSaveOptions) :
    PicanteResult Bytes := do
  ensureUniqueKinds [] ingredients
  let sections ← ingredients.mapM fun i =>
    (db.saveSection o C i).map (Section.skipOversized options.maxRecordBytes)
  let cache : CacheFile := ⟨formatVersion, db.runtime.currentRevision,
    sections.map (Section.truncate options.maxRecordsPerSection)⟩
  let cache ←
    match options.maxBytes with
    | some maxBytes => cache.shrinkToFit C maxBytes
    | none => pure cache
  C.encodeFile cache

/-! ## 2. What is left of a cache -/

/-- `s'` is `s` with some of its records, in any order. -/
structure Section.Cut (s s' : Section) : Prop where
  kindId : s'.kindId = s.kindId
  kindName : s'.kindName = s.kindName
  sectionType : s'.sectionType = s.sectionType
  records : s'.records.Subperm s.records

namespace Section.Cut

variable {s s' s'' : Section}

theorem refl (s : Section) : Cut s s := ⟨rfl, rfl, rfl, .refl _⟩

theorem trans (h : Cut s s') (h' : Cut s' s'') : Cut s s'' :=
  ⟨h'.kindId.trans h.kindId, h'.kindName.trans h.kindName, h'.sectionType.trans h.sectionType,
    h'.records.trans h.records⟩

theorem of_records {records : List Bytes} (h : records.Subperm s.records) :
    Cut s { s with records } := ⟨rfl, rfl, rfl, h⟩

theorem skipOversized (max : Option Nat) (s : Section) : Cut s (s.skipOversized max) := by
  cases max with
  | none => exact .refl s
  | some max => exact of_records (List.filter_sublist ..).subperm

theorem truncate (max : Option Nat) (s : Section) : Cut s (s.truncate max) := by
  cases max with
  | none => exact .refl s
  | some max => exact of_records (List.take_sublist ..).subperm

theorem sortByLength (s : Section) : Cut s s.sortByLength :=
  of_records (List.mergeSort_perm ..).subperm

/-- Section by section. -/
theorem trans_all {ss ss' ss'' : List Section} (h : List.Forall₂ Cut ss ss')
    (h' : List.Forall₂ Cut ss' ss'') : List.Forall₂ Cut ss ss'' := by
  induction h generalizing ss'' with
  | nil => exact h'
  | cons hs _ ih =>
    cases h' with
    | cons hs' hrest => exact .cons (hs.trans hs') (ih hrest)

end Section.Cut

/-- `f'` is `f` with some of the records of its sections. -/
structure CacheFile.Cut (f f' : CacheFile) : Prop where
  formatVersion : f'.formatVersion = f.formatVersion
  currentRevision : f'.currentRevision = f.currentRevision
  sections : List.Forall₂ Section.Cut f.sections f'.sections

namespace CacheFile

variable {f f' f'' : CacheFile}

theorem Cut.refl (f : CacheFile) : Cut f f :=
  ⟨rfl, rfl, List.forall₂_same.mpr fun s _ => .refl s⟩

theorem Cut.trans (h : Cut f f') (h' : Cut f' f'') : Cut f f'' where
  formatVersion := h'.formatVersion.trans h.formatVersion
  currentRevision := h'.currentRevision.trans h.currentRevision
  sections := Section.Cut.trans_all h.sections h'.sections

/-- Every section is cut on its own. -/
theorem cut_map (f : CacheFile) {g : Section → Section} (hg : ∀ s, Section.Cut s (g s)) :
    Cut f { f with sections := f.sections.map g } :=
  ⟨rfl, rfl, List.forall₂_map_right_iff.mpr (List.forall₂_same.mpr fun s _ => hg s)⟩

theorem cut_dropLast (f : CacheFile) (idx : Nat) : Cut f (f.dropLast idx) := by
  refine ⟨rfl, rfl, ?_⟩
  show List.Forall₂ Section.Cut f.sections (f.sections.modify idx _)
  generalize f.sections = sections
  induction sections generalizing idx with
  | nil => simp
  | cons s sections ih =>
    cases idx with
    | zero =>
      rw [List.modify_zero_cons]
      exact .cons (.of_records (List.dropLast_sublist _).subperm)
        (List.forall₂_same.mpr fun s _ => .refl s)
    | succ idx =>
      rw [List.modify_succ_cons]
      exact .cons (.refl s) (ih idx)

theorem cut_dropOneRecord {ty : SectionType} {len : Nat}
    (h : f.dropOneRecord ty = some (f', len)) : Cut f f' := by
  obtain ⟨⟨idx, n⟩, -, heq⟩ := Option.map_eq_some_iff.mp h
  obtain ⟨rfl, -⟩ := Prod.mk.inj heq
  exact cut_dropLast f idx

theorem cut_dropRecord {len : Nat} (h : f.dropRecord = some (f', len)) : Cut f f' := by
  unfold dropRecord at h
  split at h
  · next hderived => exact cut_dropOneRecord (hderived.trans h)
  · split at h
    · next hinput => exact cut_dropOneRecord (hinput.trans h)
    · exact cut_dropOneRecord h

theorem cut_dropDown (budget fuel : Nat) (f : CacheFile) (current : Nat) :
    Cut f (dropDown budget fuel f current) := by
  induction fuel generalizing f current with
  | zero => exact .refl f
  | succ fuel ih =>
    unfold dropDown
    split
    · exact .refl f
    · split
      · next hdrop => exact (cut_dropRecord hdrop).trans (ih ..)
      · exact .refl f

variable {C : Codec V} {maxBytes : Nat}

/-- The cache is encoded in at most so many bytes. -/
def Fits (C : Codec V) (maxBytes : Nat) (f : CacheFile) : Prop :=
  ∃ bytes, C.encodeFile f = .ok bytes ∧ bytes.length ≤ maxBytes

theorem checkFits_ok (h : checkFits C maxBytes f = .ok f') : f' = f ∧ Fits C maxBytes f := by
  unfold checkFits at h
  cases hencode : C.encodeFile f with
  | error e => rw [hencode] at h; cases h
  | ok bytes =>
    rw [hencode] at h
    simp only [bind, Except.bind, pure, Except.pure] at h
    split at h <;> cases h
    next hle => exact ⟨rfl, bytes, hencode, Nat.not_lt.mp hle⟩

/-- What dropping keeps, the verification keeps, and it returns only what fits. -/
theorem verifyFits_ok {P : CacheFile → Prop} {passes : Nat}
    (hdrop : ∀ f budget, P f → P (f.dropTo budget)) (hP : P f)
    (h : verifyFits C maxBytes passes f = .ok f') : P f' ∧ Fits C maxBytes f' := by
  induction passes generalizing f with
  | zero =>
    obtain ⟨rfl, hfits⟩ := checkFits_ok h
    exact ⟨hP, hfits⟩
  | succ passes ih =>
    unfold verifyFits at h
    cases hencode : C.encodeFile f with
    | error e => rw [hencode] at h; cases h
    | ok bytes =>
      rw [hencode] at h
      simp only [bind, Except.bind, pure, Except.pure] at h
      split at h
      · next hle =>
        cases h
        exact ⟨hP, bytes, hencode, hle⟩
      · split at h
        · obtain ⟨rfl, hfits⟩ := checkFits_ok h
          exact ⟨hP, hfits⟩
        · exact ih (hdrop _ _ hP) h

/-- What sorting and dropping keep, shrinking keeps, and it returns only what fits. -/
theorem shrinkToFit_ok {P : CacheFile → Prop} (hdrop : ∀ f budget, P f → P (f.dropTo budget))
    (hsort : P f → P { f with sections := f.sections.map Section.sortByLength }) (hP : P f)
    (h : f.shrinkToFit C maxBytes = .ok f') : P f' ∧ Fits C maxBytes f' := by
  unfold shrinkToFit at h
  cases hencode : C.encodeFile f with
  | error e => rw [hencode] at h; cases h
  | ok bytes =>
    rw [hencode] at h
    simp only [bind, Except.bind, pure, Except.pure] at h
    split at h
    · next hle =>
      cases h
      exact ⟨hP, bytes, hencode, hle⟩
    · split at h
      · cases h
      · exact verifyFits_ok hdrop (hdrop _ _ (hsort hP)) h

/-- **Shrinking a cache only drops records.** -/
theorem cut_shrinkToFit (h : f.shrinkToFit C maxBytes = .ok f') : Cut f f' :=
  (shrinkToFit_ok (fun _ _ hcut => hcut.trans (cut_dropDown ..))
    (fun hcut => hcut.trans (cut_map f Section.Cut.sortByLength)) (.refl f) h).1

end CacheFile

/-! ## 3. What is saved -/

section saved

variable {C : Codec V} {o : Order} {ingredients : List PersistableIngredient} {db : Database V}
  {options : CacheSaveOptions} {bytes : Bytes}

/-- Without limits, the whole cache is saved. -/
theorem saveCacheWithOptions_default :
    db.saveCacheWithOptions o C ingredients .default = db.saveCache o C ingredients := by
  have hskip : ∀ i, (db.saveSection o C i).map (Section.skipOversized none) =
      db.saveSection o C i := by
    intro i
    cases db.saveSection o C i <;> rfl
  have htruncate : ∀ sections : List Section, sections.map (Section.truncate none) = sections :=
    fun sections => List.map_id sections
  unfold Database.saveCacheWithOptions Database.saveCache
  simp only [CacheSaveOptions.default, hskip, htruncate, pure_bind]

/-- The sections that were saved, before their records were skipped. -/
theorem saved_of_skipped {max : Option Nat} {skipped : List Section}
    (h : List.Forall₂ (fun i s => (db.saveSection o C i).map (Section.skipOversized max) = .ok s)
      ingredients skipped) :
    ∃ sections, List.Forall₂ (fun i s => db.saveSection o C i = .ok s) ingredients sections ∧
      List.Forall₂ Section.Cut sections skipped := by
  induction h with
  | nil => exact ⟨[], .nil, .nil⟩
  | @cons i s' rest skipped hs _ ih =>
    obtain ⟨sections, hsaved, hcut⟩ := ih
    cases hsection : db.saveSection o C i with
    | error e => rw [hsection] at hs; cases hs
    | ok s =>
      rw [hsection] at hs
      cases hs
      exact ⟨s :: sections, .cons hsection hsaved, .cons (.skipOversized max s) hcut⟩

/-- **What a save within limits has written**: the whole cache, cut. -/
theorem saved_cut (h : db.saveCacheWithOptions o C ingredients options = .ok bytes) :
    (ingredients.map (·.kind)).Nodup ∧ ∃ sections cache,
      List.Forall₂ (fun i s => db.saveSection o C i = .ok s) ingredients sections ∧
        CacheFile.Cut ⟨formatVersion, db.runtime.currentRevision, sections⟩ cache ∧
          C.encodeFile cache = .ok bytes := by
  unfold Database.saveCacheWithOptions at h
  cases hkinds : ensureUniqueKinds [] ingredients with
  | error e => rw [hkinds] at h; cases h
  | ok u =>
    cases hsections : ingredients.mapM fun i =>
        (db.saveSection o C i).map (Section.skipOversized options.maxRecordBytes) with
    | error e => rw [hkinds, hsections] at h; cases h
    | ok skipped =>
      rw [hkinds, hsections] at h
      obtain ⟨sections, hsaved, hcut⟩ := saved_of_skipped (mapM_eq_ok_iff.mp hsections)
      have hskipped : CacheFile.Cut ⟨formatVersion, db.runtime.currentRevision, sections⟩
          ⟨formatVersion, db.runtime.currentRevision, skipped⟩ := ⟨rfl, rfl, hcut⟩
      have htruncated := hskipped.trans
        (CacheFile.cut_map _ (Section.Cut.truncate options.maxRecordsPerSection))
      simp only [bind, Except.bind, pure, Except.pure] at h
      refine ⟨(ensureUniqueKinds_ok_iff.mp hkinds).1, sections, ?_⟩
      split at h
      · split at h
        · cases h
        · next cache hshrink =>
          exact ⟨cache, hsaved, htruncated.trans (CacheFile.cut_shrinkToFit hshrink), h⟩
      · exact ⟨_, hsaved, htruncated, h⟩

end saved

end Picante

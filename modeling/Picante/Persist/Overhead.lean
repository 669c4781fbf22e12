/-
# When shrinking a cache fails

`shrink_cache_to_fit` takes what is not records for fixed: it fails at once when the encoded cache,
less the bytes of its records, is not smaller than the limit.  But the prefixes that say how long
the records are go with the records.

* `dropTo_fits` -- in all other cases the first round of drops is enough.
* `shrink_fails_only_when_it_must_iff` -- shrinking fails although the cache would fit without its
  records if the limit lies between what its headers take and what it takes besides its records.
* `shrink_gives_up` -- a cache of which a record could have been kept.
-/
import Picante.Persist.Shrink

namespace Picante

open Framing

variable {V : Type}

namespace CacheFile

variable {f f' : CacheFile} {C : Codec V} {L : Layout} {maxBytes : Nat}

/-- The cache with all records removed. -/
def withoutRecords (f : CacheFile) : CacheFile :=
  { f with sections := f.sections.map fun s => { s with records := [] } }

/-! ## 1. Records and the rest -/

theorem length_encodeSection (L : Layout) (s : Section) :
    (L.encodeSection s).length = L.sectionFraming s + (s.records.map List.length).sum := by
  rw [Layout.encodeSection, List.length_append, Prefix.length_list_bytes, Layout.sectionFraming,
    Nat.add_assoc]

/-- An encoded cache is its records and the rest. -/
theorem length_encode (L : Layout) (f : CacheFile) :
    (L.encode f).length = L.framing f + f.recordBytes := by
  simp only [Layout.encode, List.length_append, Prefix.length_list, length_encodeSection,
    List.sum_map_add, Layout.framing, recordBytes]
  simp only [Nat.add_assoc]

/-- **Dropping records never adds to the rest.** -/
theorem framing_le_of_cut (h : Cut f f') : L.framing f' ≤ L.framing f := by
  have hsection {s s' : Section} (hs : Section.Cut s s') :
      L.sectionFraming s' ≤ L.sectionFraming s := by
    simp only [Layout.sectionFraming, hs.kindId, hs.kindName, hs.sectionType]
    exact Nat.add_le_add_left (L.lengthPrefix.overhead_le hs.records) _
  have hsections : (f'.sections.map L.sectionFraming).sum ≤
      (f.sections.map L.sectionFraming).sum := by
    refine List.Forall₂.sum_le_sum ?_
    rw [List.forall₂_map_left_iff, List.forall₂_map_right_iff]
    exact h.sections.flip.imp fun _ _ => hsection
  simp only [Layout.framing, h.formatVersion, h.currentRevision, h.sections.length_eq]
  omega

theorem recordBytes_withoutRecords (f : CacheFile) : f.withoutRecords.recordBytes = 0 :=
  recordBytes_of_no_records (by simp [withoutRecords])

theorem fits_iff (hC : C.LaysOut L) :
    Fits C maxBytes f ↔ L.framing f + f.recordBytes ≤ maxBytes := by
  rw [← length_encode]
  constructor
  · rintro ⟨bytes, hencode, hle⟩
    rw [hC f] at hencode
    cases hencode
    exact hle
  · exact fun hle => ⟨_, hC f, hle⟩

/-- The first round of drops is enough, when records are all that is too much. -/
theorem dropTo_fits (hC : C.LaysOut L) (h : Cut f f') (hlt : L.framing f < maxBytes) :
    Fits C maxBytes (f'.dropTo (maxBytes - L.framing f)) := by
  rw [fits_iff hC]
  have hframing : L.framing (f'.dropTo (maxBytes - L.framing f)) ≤ L.framing f :=
    framing_le_of_cut (h.trans (cut_dropDown ..))
  have hrecords := dropTo_within f' (maxBytes - L.framing f)
  omega

theorem verifyFits_of_fits {passes : Nat} (h : Fits C maxBytes f) :
    verifyFits C maxBytes (passes + 1) f = .ok f := by
  obtain ⟨bytes, hencode, hle⟩ := h
  rw [verifyFits, hencode]
  simp only [bind, Except.bind, if_pos hle]
  rfl

/-- **When shrinking fails**: the cache does not fit, and what it takes besides its records is not
less than the limit. -/
theorem shrinkToFit_error_iff (hC : C.LaysOut L) :
    (∃ e, f.shrinkToFit C maxBytes = .error e) ↔
      ¬ Fits C maxBytes f ∧ maxBytes ≤ L.framing f := by
  have hoverhead : f.overhead (L.encode f).length = L.framing f := by
    rw [length_encode, overhead, if_pos (by omega), Nat.add_sub_cancel]
  unfold shrinkToFit
  rw [hC f]
  simp only [bind, Except.bind, hoverhead]
  rw [fits_iff hC, ← length_encode]
  split
  · next hle =>
    constructor
    · rintro ⟨e, he⟩
      cases he
    · exact fun h => absurd hle h.1
  · next hle =>
    split
    · next hge => exact ⟨fun _ => ⟨hle, hge⟩, fun _ => ⟨_, rfl⟩⟩
    · next hge =>
      have hfits := dropTo_fits hC (cut_map f Section.Cut.sortByLength) (Nat.not_le.mp hge)
      rw [verifyFits_of_fits hfits]
      constructor
      · rintro ⟨e, he⟩
        cases he
      · exact fun h => absurd h.2 hge

end CacheFile

open CacheFile

/-! ## 2. Failing although the cache without records fits -/

/-- **When shrinking fails only if it must**: the cache fits as it is, or what it takes besides its
records is less than the limit, or what its headers take alone is more. -/
theorem shrink_fails_only_when_it_must_iff {C : Codec V} {L : Layout} (hC : C.LaysOut L)
    (f : CacheFile) (maxBytes : Nat) :
    ((∃ e, f.shrinkToFit C maxBytes = .error e) → ¬ Fits C maxBytes f.withoutRecords) ↔
      Fits C maxBytes f ∨ L.framing f < maxBytes ∨ maxBytes < L.framing f.withoutRecords := by
  rw [shrinkToFit_error_iff hC, fits_iff (f := f.withoutRecords) hC,
    recordBytes_withoutRecords]
  by_cases hfits : Fits C maxBytes f
  · simp [hfits]
  · simp only [hfits, not_false_eq_true, true_and, false_or]
    omega

/-- Three derived records of a byte each. -/
def threeRecords : CacheFile := ⟨formatVersion, 1, [⟨1, "q", .derived, [[0], [1], [2]]⟩]⟩

/-- **Shrinking gives up needlessly**: with the prefixes of its three records the cache has an
overhead of 11 bytes, but with one record it fits in 10, and without records in 8. -/
theorem shrink_gives_up :
    threeRecords.shrinkToFit (Codec.ofLayout (V := Nat) .postcard) 10 =
        .error (.cache "cache overhead (11 bytes) exceeds max_bytes (10)") ∧
      Fits (Codec.ofLayout (V := Nat) .postcard) 10 threeRecords.withoutRecords ∧
      Fits (Codec.ofLayout (V := Nat) .postcard) 10
        ⟨formatVersion, 1, [⟨1, "q", .derived, [[0]]⟩]⟩ := by
  refine ⟨rfl, ?_, ?_⟩
  · exact ⟨_, Codec.laysOut_ofLayout .postcard _, by decide⟩
  · exact ⟨_, Codec.laysOut_ofLayout .postcard _, by decide⟩

/-- It is right to fail at a limit of 7 bytes, and at one of 10 it is not. -/
theorem limits_of_three_records :
    ((∃ e, threeRecords.shrinkToFit (Codec.ofLayout (V := Nat) .postcard) 7 = .error e) →
        ¬ Fits (Codec.ofLayout (V := Nat) .postcard) 7 threeRecords.withoutRecords) ∧
      ¬ ((∃ e, threeRecords.shrinkToFit (Codec.ofLayout (V := Nat) .postcard) 10 = .error e) →
        ¬ Fits (Codec.ofLayout (V := Nat) .postcard) 10 threeRecords.withoutRecords) := by
  have hC := Codec.laysOut_ofLayout (V := Nat) .postcard
  constructor
  · refine (shrink_fails_only_when_it_must_iff hC threeRecords 7).mpr (.inr (.inr ?_))
    decide
  · intro h
    rcases (shrink_fails_only_when_it_must_iff hC threeRecords 10).mp h with hfits | hlt | hlt
    · exact absurd ((fits_iff hC).mp hfits) (by decide)
    · exact absurd hlt (by decide)
    · exact absurd hlt (by decide)

end Picante

/-
# Eviction by a queue

Records are kept under keys, and a queue holds what was stored, in its order: the key, and the stamp
that the record got.  `evict` takes entries off the front of the queue while there are more than
`max` records, and removes the record of an entry if it is still the one with that stamp.

* `Queued records order` -- every record has its own entry in the queue.  Evicting keeps this
  (`Queued.evict`), and leaves at most `max` records (`Queued.size_evict`).
* `lookup_evict` -- the records that are removed are those whose entries were taken off, the first
  of the queue (`popped_append`).
* `Queued.evict_append` -- the entries behind those of the records do not matter.
-/
import Mathlib.Data.List.AList

namespace Eviction

variable {K A : Type}

/-- Records under keys. -/
abbrev Records (K A : Type) := AList fun _ : K => A

/-- How many there are. -/
def size (records : Records K A) : Nat := records.keys.length

@[simp] theorem size_empty : size (∅ : Records K A) = 0 := rfl

variable [DecidableEq K]

theorem size_insert_of_mem {records : Records K A} {k : K} (h : k ∈ records) (a : A) :
    size (records.insert k a) = size records := by
  unfold size
  rw [AList.keys_insert, List.length_cons, List.length_erase_of_mem (AList.mem_keys.mp h)]
  have hpos := List.length_pos_of_mem (AList.mem_keys.mp h)
  omega

theorem size_insert_of_not_mem {records : Records K A} {k : K} (h : k ∉ records) (a : A) :
    size (records.insert k a) = size records + 1 := by
  unfold size
  rw [AList.keys_insert, List.length_cons, List.erase_of_not_mem (AList.mem_keys.not.mp h)]

theorem size_insert_le (records : Records K A) (k : K) (a : A) :
    size (records.insert k a) ≤ size records + 1 := by
  by_cases h : k ∈ records
  · rw [size_insert_of_mem h]
    exact Nat.le_succ _
  · rw [size_insert_of_not_mem h]

/-- The records under no key are none. -/
theorem size_eq_zero {records : Records K A} (h : ∀ k, records.lookup k = none) :
    size records = 0 := by
  unfold size
  rw [List.length_eq_zero_iff, List.eq_nil_iff_forall_not_mem]
  intro k hk
  exact AList.lookup_eq_none.mp (h k) (AList.mem_keys.mpr hk)

variable (stamp : A → Nat)

/-- Removes the record of an entry, unless another was stored since. -/
def dropEntry (records : Records K A) (entry : K × Nat) : Records K A :=
  if (records.lookup entry.1).map stamp = some entry.2 then records.erase entry.1 else records

/-- Takes entries off the queue while there are more than `max` records. -/
def evict (max : Nat) : Records K A → List (K × Nat) → Records K A × List (K × Nat)
  | records, [] => (records, [])
  | records, entry :: order =>
    if size records ≤ max then (records, entry :: order)
    else evict max (dropEntry stamp records entry) order

/-- The entries that are taken off. -/
def popped (max : Nat) : Records K A → List (K × Nat) → List (K × Nat)
  | _, [] => []
  | records, entry :: order =>
    if size records ≤ max then []
    else entry :: popped max (dropEntry stamp records entry) order

/-- Every record has its own entry in the queue. -/
def Queued (records : Records K A) (order : List (K × Nat)) : Prop :=
  ∀ k a, records.lookup k = some a → (k, stamp a) ∈ order

variable {stamp} {max : Nat} {records : Records K A} {order : List (K × Nat)}

/-- The records that are left when one entry is taken off. -/
theorem lookup_dropEntry {entry : K × Nat} {k : K} {a : A} :
    (dropEntry stamp records entry).lookup k = some a ↔
      records.lookup k = some a ∧ (k, stamp a) ≠ entry := by
  obtain ⟨key, id⟩ := entry
  unfold dropEntry
  by_cases hk : k = key
  · subst hk
    split
    · next hstamp =>
      rw [AList.lookup_erase]
      refine iff_of_false nofun fun ⟨ha, hne⟩ => hne ?_
      rw [ha] at hstamp
      obtain rfl : stamp a = id := Option.some.inj hstamp
      rfl
    · next hstamp =>
      refine ⟨fun ha => ⟨ha, fun heq => hstamp ?_⟩, And.left⟩
      rw [ha, ← (Prod.mk.inj heq).2]
      rfl
  · have hne : (k, stamp a) ≠ (key, id) := fun heq => hk (Prod.mk.inj heq).1
    rw [and_iff_left hne]
    split
    · rw [AList.lookup_erase_ne hk]
    · rfl

/-- **The records that are left are those whose entries were not taken off.** -/
theorem lookup_evict {k : K} {a : A} :
    (evict stamp max records order).1.lookup k = some a ↔
      records.lookup k = some a ∧ (k, stamp a) ∉ popped stamp max records order := by
  induction order generalizing records with
  | nil => simp [evict, popped]
  | cons entry order ih =>
    unfold evict popped
    split
    · simp
    · rw [ih, lookup_dropEntry, and_assoc, List.mem_cons, not_or]

/-- The entries are taken off the front. -/
theorem popped_append (stamp : A → Nat) (max : Nat) (records : Records K A)
    (order : List (K × Nat)) :
    popped stamp max records order ++ (evict stamp max records order).2 = order := by
  induction order generalizing records with
  | nil => rfl
  | cons entry order ih =>
    unfold evict popped
    split
    · rfl
    · rw [List.cons_append, ih]

/-- Where there are not too many records, nothing happens. -/
theorem evict_of_le (h : size records ≤ max) (order : List (K × Nat)) :
    evict stamp max records order = (records, order) := by
  cases order with
  | nil => rfl
  | cons entry order => exact if_pos h

theorem Queued.drop {entry : K × Nat} (h : Queued stamp records (entry :: order)) :
    Queued stamp (dropEntry stamp records entry) order := by
  intro k a ha
  obtain ⟨ha, hne⟩ := lookup_dropEntry.mp ha
  exact (List.mem_cons.mp (h k a ha)).resolve_left hne

theorem Queued.size_nil (h : Queued stamp records []) : size records = 0 := by
  refine size_eq_zero fun k => ?_
  cases ha : records.lookup k with
  | none => rfl
  | some a => cases h k a ha

/-- **What is left is still queued.** -/
theorem Queued.evict (h : Queued stamp records order) :
    Queued stamp (evict stamp max records order).1 (evict stamp max records order).2 := by
  intro k a ha
  obtain ⟨ha, hpopped⟩ := lookup_evict.mp ha
  have hmem := h k a ha
  rw [← popped_append stamp max records order, List.mem_append] at hmem
  exact hmem.resolve_left hpopped

/-- **Eviction brings the records down to the limit**, if each has its entry. -/
theorem Queued.size_evict (h : Queued stamp records order) :
    size (Eviction.evict stamp max records order).1 ≤ max := by
  induction order generalizing records with
  | nil =>
    rw [evict_of_le] <;> rw [h.size_nil] <;> exact Nat.zero_le _
  | cons entry order ih =>
    unfold Eviction.evict
    split
    · assumption
    · exact ih h.drop

/-- Eviction ends before the entries behind those of the records. -/
theorem Queued.evict_append (h : Queued stamp records order) (max : Nat) (extra : List (K × Nat)) :
    Eviction.evict stamp max records (order ++ extra) =
      ((Eviction.evict stamp max records order).1,
        (Eviction.evict stamp max records order).2 ++ extra) := by
  induction order generalizing records with
  | nil => exact evict_of_le (h.size_nil ▸ Nat.zero_le max) extra
  | cons entry order ih =>
    rw [List.cons_append]
    unfold Eviction.evict
    split
    · rfl
    · exact ih h.drop

end Eviction

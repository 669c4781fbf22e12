/-
# The interning table

`InternedIngredient` as it is: ids of 32 bits that wrap around, values filed under their encoded
keys, and a load that fills the maps record by record and sets the next id at its end only.

* `interning_table_invariant` -- the maps are inverse to each other and the next id is above all
  ids in use, and so every id keeps its value, as long as every call is one that `Keeps` this:
  exactly then.
* `rejected_load_forgets_next_id` -- a load that is rejected on its way is not one: its records
  stay, and the next id is 0.
-/
import Picante.Key
import Mathlib

namespace Picante

namespace Interning

variable {K : Type}

/-! ## 1. The ingredient -/

/-- How values are encoded as keys, and records decoded. -/
structure Facet (K : Type) where
  encode : K → PicanteResult Key
  decode : List UInt8 → PicanteResult (UInt32 × K)

/-- The next id, ids by encoded value, values by id. -/
structure Ingredient (K : Type) where
  nextId : UInt32
  byValue : Key → Option UInt32
  byId : UInt32 → Option K

namespace Ingredient

/-- A new ingredient, and what `clear` leaves. -/
def empty : Ingredient K := ⟨0, fun _ => none, fun _ => none⟩

/-- Files a value. -/
def insert (t : Ingredient K) (key : Key) (id : UInt32) (value : K) : Ingredient K :=
  { t with
    byValue := Function.update t.byValue key (some id)
    byId := Function.update t.byId id (some value) }

/-- Files a value under the next id; the counter wraps around. -/
def insertNext (t : Ingredient K) (key : Key) (value : K) : Ingredient K :=
  { t.insert key t.nextId value with nextId := t.nextId + 1 }

/-- `intern`. -/
def intern (F : Facet K) (t : Ingredient K) (value : K) : PicanteResult UInt32 × Ingredient K :=
  match F.encode value with
  | .error e => (.error e, t)
  | .ok key =>
    match t.byValue key with
    | some id => (.ok id, t)
    | none => (.ok t.nextId, t.insertNext key value)

/-- `u32::saturating_add`. -/
def saturatingAdd (a b : UInt32) : UInt32 := UInt32.ofNat (min (a.toNat + b.toNat) (2 ^ 32 - 1))

/-- The loop of `load_records`, up to the first record that is rejected. -/
def loadLoop (F : Facet K) (kindName : String) :
    Ingredient K → UInt32 → List (List UInt8) → PicanteResult Unit × Ingredient K
  | t, maxId, [] => (.ok (), { t with nextId := saturatingAdd maxId 1 })
  | t, maxId, bytes :: rest =>
    match F.decode bytes with
    | .error e => (.error e, t)
    | .ok (id, value) =>
      if (t.byId id).isSome then
        (.error (.cache ("duplicate interned id " ++ toString id ++ " in `" ++ kindName ++ "`")), t)
      else
        match F.encode value with
        | .error e => (.error e, t)
        | .ok key =>
          match t.byValue key with
          | some existing =>
            -- filed under the new id already, and not taken back
            (.error (.cache ("duplicate interned value for `" ++ kindName ++ "` (ids " ++
              toString existing ++ " and " ++ toString id ++ ")")),
              { t with byValue := Function.update t.byValue key (some id) })
          | none => loadLoop F kindName (t.insert key id value) (max maxId id) rest

/-- `load_records`. -/
def loadRecords (F : Facet K) (kindName : String) (records : List (List UInt8)) :
    PicanteResult Unit × Ingredient K :=
  loadLoop F kindName empty 0 records

end Ingredient

/-- A call on the ingredient. -/
inductive Call (K : Type) where
  | intern (value : K)
  | clear
  | load (records : List (List UInt8))

def Call.isIntern : Call K → Bool
  | .intern _ => true
  | _ => false

/-- The ingredient after a call, whatever the call returns. -/
def Ingredient.after (F : Facet K) (kindName : String) (t : Ingredient K) :
    Call K → Ingredient K
  | .intern value => (t.intern F value).2
  | .clear => .empty
  | .load records => (loadRecords F kindName records).2

/-- A new ingredient after a sequence of calls. -/
def afterAll (F : Facet K) (kindName : String) (calls : List (Call K)) : Ingredient K :=
  calls.foldl (·.after F kindName) .empty

/-! ## 2. The invariant, and the calls that keep it -/

/-- **The invariant**: the maps are inverse to each other, and the next id is above all in use. -/
structure Ingredient.Sound (F : Facet K) (t : Ingredient K) : Prop where
  byId : ∀ id v, t.byId id = some v → ∃ key, F.encode v = .ok key ∧ t.byValue key = some id
  byValue : ∀ key id, t.byValue key = some id → ∃ v, t.byId id = some v ∧ F.encode v = .ok key
  above : ∀ id v, t.byId id = some v → id < t.nextId

/-- A record with the key of its value. -/
def Facet.keyed (F : Facet K) (bytes : List UInt8) : PicanteResult (UInt32 × Key) :=
  match F.decode bytes with
  | .error e => .error e
  | .ok (id, value) =>
    match F.encode value with
    | .error e => .error e
    | .ok key => .ok (id, key)

/-- The records are of distinct ids, none the last one, and of distinct values. -/
def Facet.Accepts (F : Facet K) (records : List (List UInt8)) : Prop :=
  ∃ rs : List (UInt32 × Key), List.Forall₂ (fun bytes r => F.keyed bytes = .ok r) records rs ∧
    (rs.map Prod.fst).Nodup ∧ (rs.map Prod.snd).Nodup ∧ ∀ r ∈ rs, r.1.toNat < 2 ^ 32 - 1

/-- Not even the first record can be read. -/
def Facet.Refuses (F : Facet K) (records : List (List UInt8)) : Prop :=
  ∃ bytes rest e, records = bytes :: rest ∧ F.keyed bytes = .error e

/-- **The calls that keep the invariant**: an interning that does not take the last id, and a load
of records all of which are accepted, none of the last id, or of which none is read. -/
def Call.Keeps (F : Facet K) (t : Ingredient K) : Call K → Prop
  | .intern value => ∀ key, F.encode value = .ok key → t.byValue key = none →
      t.nextId.toNat < 2 ^ 32 - 1
  | .clear => True
  | .load records => F.Accepts records ∨ F.Refuses records

/-! ## 3. What a call does to the invariant -/

section calls

variable {F : Facet K} {kindName : String} {t t' : Ingredient K} {maxId : UInt32}

/-- The counter moves on, unless the id was the last one. -/
theorem toNat_succ {n : UInt32} (h : n.toNat < 2 ^ 32 - 1) : (n + 1).toNat = n.toNat + 1 := by
  rw [UInt32.toNat_add]
  have hone : (1 : UInt32).toNat = 1 := rfl
  omega

theorem toNat_saturatingAdd (n : UInt32) :
    (Ingredient.saturatingAdd n 1).toNat = min (n.toNat + 1) (2 ^ 32 - 1) := by
  have hone : (1 : UInt32).toNat = 1 := rfl
  rw [Ingredient.saturatingAdd, UInt32.toNat_ofNat', hone]
  omega

open Ingredient

theorem sound_empty : (empty : Ingredient K).Sound F := ⟨nofun, nofun, nofun⟩

theorem byId_insert (t : Ingredient K) (key : Key) (id id' : UInt32) (v : K) :
    (t.insert key id v).byId id' = if id' = id then some v else t.byId id' :=
  Function.update_apply ..

theorem byValue_insert (t : Ingredient K) (key key' : Key) (id : UInt32) (v : K) :
    (t.insert key id v).byValue key' = if key' = key then some id else t.byValue key' :=
  Function.update_apply ..

/-- What is known of the maps alone, also during a load. -/
structure Inverse (F : Facet K) (t : Ingredient K) : Prop where
  byId : ∀ id v, t.byId id = some v → ∃ key, F.encode v = .ok key ∧ t.byValue key = some id
  byValue : ∀ key id, t.byValue key = some id → ∃ v, t.byId id = some v ∧ F.encode v = .ok key

theorem Ingredient.Sound.inverse (h : t.Sound F) : Inverse F t := ⟨h.byId, h.byValue⟩

/-- **A value with a new key is filed under an id that is not in use.** -/
theorem Inverse.insert (h : Inverse F t) {key : Key} {id : UInt32} {v : K}
    (hkey : F.encode v = .ok key) (hid : t.byId id = none) (hnew : t.byValue key = none) :
    Inverse F (t.insert key id v) where
  byId id' v' hv' := by
    rw [byId_insert] at hv'
    split at hv'
    · next heq =>
      cases hv'
      refine ⟨key, hkey, ?_⟩
      rw [byValue_insert, if_pos rfl, heq]
    · obtain ⟨key', hkey', hfiled⟩ := h.byId id' v' hv'
      refine ⟨key', hkey', ?_⟩
      rw [byValue_insert, if_neg, hfiled]
      rintro rfl
      rw [hnew] at hfiled
      cases hfiled
  byValue key' id' hid' := by
    rw [byValue_insert] at hid'
    split at hid'
    · next heq =>
      cases hid'
      refine ⟨v, ?_, heq ▸ hkey⟩
      rw [byId_insert, if_pos rfl]
    · obtain ⟨v', hv', hkey'⟩ := h.byValue key' id' hid'
      refine ⟨v', ?_, hkey'⟩
      rw [byId_insert, if_neg, hv']
      rintro rfl
      rw [hid] at hv'
      cases hv'

/-- The id that is next is not in use. -/
theorem Ingredient.Sound.next_unused (h : t.Sound F) : t.byId t.nextId = none := by
  cases hv : t.byId t.nextId with
  | none => rfl
  | some v => exact absurd (h.above _ v hv) (UInt32.lt_irrefl _)

/-- **What an interning does.** -/
theorem intern_cases (F : Facet K) (t : Ingredient K) (value : K) :
    (∃ e, F.encode value = .error e ∧ t.intern F value = (.error e, t)) ∨
    (∃ key id, F.encode value = .ok key ∧ t.byValue key = some id ∧
      t.intern F value = (.ok id, t)) ∨
    (∃ key, F.encode value = .ok key ∧ t.byValue key = none ∧
      t.intern F value = (.ok t.nextId, t.insertNext key value)) := by
  unfold Ingredient.intern
  cases hkey : F.encode value with
  | error e => exact .inl ⟨e, rfl, rfl⟩
  | ok key =>
    cases hid : t.byValue key with
    | some id => exact .inr (.inl ⟨key, id, rfl, hid, by simp only [hid]⟩)
    | none => exact .inr (.inr ⟨key, rfl, hid, by simp only [hid]⟩)

theorem byId_insertNext (t : Ingredient K) (key : Key) (id : UInt32) (v : K) :
    (t.insertNext key v).byId id = if id = t.nextId then some v else t.byId id :=
  Function.update_apply ..

/-- **A new id** keeps the invariant exactly if it is not the last one. -/
theorem Ingredient.Sound.insertNext_iff (h : t.Sound F) {key : Key} {value : K}
    (hkey : F.encode value = .ok key) (hnew : t.byValue key = none) :
    (t.insertNext key value).Sound F ↔ t.nextId.toNat < 2 ^ 32 - 1 := by
  have hinv := h.inverse.insert hkey h.next_unused hnew
  constructor
  · intro hsound
    -- the new next id is above the id that was taken
    have habove := hsound.above t.nextId value (by rw [byId_insertNext, if_pos rfl])
    by_contra hlast
    have hmax : t.nextId.toNat = 2 ^ 32 - 1 := by
      have := t.nextId.toNat_lt
      omega
    have hwrap : (t.nextId + 1).toNat = 0 := by
      rw [UInt32.toNat_add, hmax]
      rfl
    have hlt : t.nextId.toNat < (t.nextId + 1).toNat := UInt32.lt_iff_toNat_lt.mp habove
    rw [hwrap] at hlt
    exact absurd hlt (Nat.not_lt_zero _)
  · intro hroom
    refine ⟨hinv.byId, hinv.byValue, fun id v hv => ?_⟩
    have hsucc : (t.insertNext key value).nextId.toNat = t.nextId.toNat + 1 := toNat_succ hroom
    rw [UInt32.lt_iff_toNat_lt, hsucc]
    rw [byId_insertNext] at hv
    split at hv
    · next heq =>
      rw [heq]
      exact Nat.lt_succ_self _
    · exact Nat.lt_succ_of_lt (UInt32.lt_iff_toNat_lt.mp (h.above id v hv))

/-- **An interning** keeps the invariant exactly if it does not take the last id. -/
theorem Ingredient.Sound.intern_iff (h : t.Sound F) (value : K) :
    (t.intern F value).2.Sound F ↔ (Call.intern value).Keeps F t := by
  simp only [Call.Keeps]
  obtain ⟨e, hkey, heq⟩ | ⟨key, id, hkey, hid, heq⟩ | ⟨key, hkey, hnew, heq⟩ :=
    intern_cases F t value
  · rw [heq, hkey]
    exact ⟨fun _ => nofun, fun _ => h⟩
  · rw [heq, hkey]
    refine ⟨fun _ key' hkey' hnone => ?_, fun _ => h⟩
    cases hkey'
    rw [hid] at hnone
    cases hnone
  · rw [heq, hkey, h.insertNext_iff hkey hnew]
    exact ⟨fun hroom _ _ _ => hroom, fun hall => hall key rfl hnew⟩

/-- An id that is in use keeps its value when another value is interned. -/
theorem Ingredient.Sound.byId_intern (h : t.Sound F) (value : K) {id : UInt32} {v : K}
    (hv : t.byId id = some v) : (t.intern F value).2.byId id = some v := by
  obtain ⟨e, -, heq⟩ | ⟨key, id', -, -, heq⟩ | ⟨key, -, -, heq⟩ := intern_cases F t value
  · rwa [heq]
  · rwa [heq]
  · have hne : id ≠ t.nextId := by
      rintro rfl
      rw [h.next_unused] at hv
      cases hv
    rw [heq, byId_insertNext, if_neg hne, hv]

/-- **An id in use is not returned for another value.** -/
theorem Ingredient.Sound.encode_of_intern (h : t.Sound F) {value v : K} {id : UInt32}
    (hid : (t.intern F value).1 = .ok id) (hv : t.byId id = some v) :
    F.encode value = F.encode v := by
  obtain ⟨e, -, heq⟩ | ⟨key, id', hkey, hfiled, heq⟩ | ⟨key, -, -, heq⟩ := intern_cases F t value
  · rw [heq] at hid
    cases hid
  · rw [heq] at hid
    cases hid
    obtain ⟨v', hv', hkey'⟩ := h.byValue key id hfiled
    rw [hv] at hv'
    cases hv'
    rw [hkey, hkey']
  · rw [heq] at hid
    cases hid
    rw [h.next_unused] at hv
    cases hv

/-- An id that is returned reads back a value of the same key. -/
theorem Ingredient.Sound.reads_back (h : t.Sound F) {value : K} {id : UInt32}
    (hid : (t.intern F value).1 = .ok id) :
    ∃ v, F.encode v = F.encode value ∧ (t.intern F value).2.byId id = some v := by
  obtain ⟨e, -, heq⟩ | ⟨key, id', hkey, hfiled, heq⟩ | ⟨key, -, -, heq⟩ := intern_cases F t value
  · rw [heq] at hid
    cases hid
  · rw [heq] at hid ⊢
    cases hid
    obtain ⟨v, hv, hkey'⟩ := h.byValue key id hfiled
    exact ⟨v, hkey'.trans hkey.symm, hv⟩
  · rw [heq] at hid ⊢
    cases hid
    exact ⟨value, rfl, by rw [byId_insertNext, if_pos rfl]⟩

/-! ## 4. Loads -/

/-- During a load: the maps are inverse to each other, the ids are at most `maxId`, which is in
use if it is not 0, and the next id is still 0. -/
structure Filling (F : Facet K) (t : Ingredient K) (maxId : UInt32) : Prop where
  inverse : Inverse F t
  nextId : t.nextId = 0
  bounded : ∀ id v, t.byId id = some v → id.toNat ≤ maxId.toNat
  reached : maxId ≠ 0 → ∃ v, t.byId maxId = some v

/-- The records that the rest of a load accepts. -/
structure Fits (t : Ingredient K) (rs : List (UInt32 × Key)) : Prop where
  ids : (rs.map Prod.fst).Nodup
  keys : (rs.map Prod.snd).Nodup
  newIds : ∀ r ∈ rs, t.byId r.1 = none
  newKeys : ∀ r ∈ rs, t.byValue r.2 = none
  small : ∀ r ∈ rs, r.1.toNat < 2 ^ 32 - 1

theorem filling_empty : Filling F empty 0 :=
  ⟨⟨nofun, nofun⟩, rfl, nofun, fun h => absurd rfl h⟩

/-- A load that stops here leaves the invariant exactly if nothing is in use. -/
theorem Filling.sound_iff (h : Filling F t maxId) : t.Sound F ↔ ∀ id, t.byId id = none := by
  constructor
  · intro hsound id
    cases hv : t.byId id with
    | none => rfl
    | some v =>
      have habove := UInt32.lt_iff_toNat_lt.mp (hsound.above id v hv)
      rw [h.nextId] at habove
      exact absurd habove (Nat.not_lt_zero _)
  · intro hnone
    refine ⟨h.inverse.byId, h.inverse.byValue, fun id v hv => ?_⟩
    rw [hnone] at hv
    cases hv

/-- At the end of a load the next id is set, above all ids unless the last one is among them. -/
theorem Filling.end_iff (h : Filling F t maxId) :
    Ingredient.Sound F { t with nextId := saturatingAdd maxId 1 } ↔ maxId.toNat < 2 ^ 32 - 1 := by
  have hnext := toNat_saturatingAdd maxId
  constructor
  · intro hsound
    by_contra hlast
    have hne : maxId ≠ 0 := by
      rintro rfl
      exact hlast (by decide)
    obtain ⟨v, hv⟩ := h.reached hne
    have habove := UInt32.lt_iff_toNat_lt.mp (hsound.above maxId v hv)
    simp only [hnext] at habove
    omega
  · intro hsmall
    refine ⟨h.inverse.byId, h.inverse.byValue, fun id v hv => ?_⟩
    have hle := h.bounded id v hv
    rw [UInt32.lt_iff_toNat_lt]
    simp only [hnext]
    omega

theorem max_cases (a b : UInt32) :
    max a b = b ∧ a.toNat ≤ b.toNat ∨ max a b = a ∧ b.toNat ≤ a.toNat := by
  show (if a ≤ b then b else a) = b ∧ _ ∨ (if a ≤ b then b else a) = a ∧ _
  split
  · next hle => exact .inl ⟨rfl, UInt32.le_iff_toNat_le.mp hle⟩
  · next hle =>
    have hlt := Nat.lt_of_not_le fun h => hle (UInt32.le_iff_toNat_le.mpr h)
    exact .inr ⟨rfl, Nat.le_of_lt hlt⟩

/-- **A record that is accepted** leaves the load filling. -/
theorem Filling.insert (h : Filling F t maxId) {key : Key} {id : UInt32} {v : K}
    (hkey : F.encode v = .ok key) (hid : t.byId id = none) (hnew : t.byValue key = none) :
    Filling F (t.insert key id v) (max maxId id) where
  inverse := h.inverse.insert hkey hid hnew
  nextId := h.nextId
  bounded id' v' hv' := by
    rw [byId_insert] at hv'
    have hle : id'.toNat ≤ maxId.toNat ∨ id' = id := by
      split at hv'
      · next heq => exact .inr heq
      · exact .inl (h.bounded id' v' hv')
    obtain ⟨hmax, hm⟩ | ⟨hmax, hm⟩ := max_cases maxId id
    · rw [hmax]
      rcases hle with hle | rfl
      · exact Nat.le_trans hle hm
      · exact Nat.le_refl _
    · rw [hmax]
      rcases hle with hle | rfl
      · exact hle
      · exact hm
  reached hne := by
    obtain ⟨hmax, -⟩ | ⟨hmax, -⟩ := max_cases maxId id
    · rw [hmax]
      exact ⟨v, by rw [byId_insert, if_pos rfl]⟩
    · rw [hmax] at hne ⊢
      obtain ⟨v', hv'⟩ := h.reached hne
      have hother : maxId ≠ id := by
        rintro rfl
        rw [hid] at hv'
        cases hv'
      exact ⟨v', by rw [byId_insert, if_neg hother, hv']⟩

/-- The records after one that is accepted. -/
theorem fits_cons {key : Key} {id : UInt32} {v : K} {rs : List (UInt32 × Key)}
    (hid : t.byId id = none) (hnew : t.byValue key = none) :
    Fits t ((id, key) :: rs) ↔ id.toNat < 2 ^ 32 - 1 ∧ Fits (t.insert key id v) rs := by
  constructor
  · intro h
    obtain ⟨hnot, hids⟩ := List.nodup_cons.mp h.ids
    obtain ⟨hnot', hkeys⟩ := List.nodup_cons.mp h.keys
    refine ⟨h.small _ (List.mem_cons_self ..), hids, hkeys, fun r hr => ?_, fun r hr => ?_,
      fun r hr => h.small r (List.mem_cons_of_mem _ hr)⟩
    · rw [byId_insert, if_neg, h.newIds r (List.mem_cons_of_mem _ hr)]
      rintro rfl
      exact hnot (List.mem_map.mpr ⟨r, hr, rfl⟩)
    · rw [byValue_insert, if_neg, h.newKeys r (List.mem_cons_of_mem _ hr)]
      rintro rfl
      exact hnot' (List.mem_map.mpr ⟨r, hr, rfl⟩)
  · rintro ⟨hsmall, h⟩
    have hother : ∀ r ∈ rs, r.1 ≠ id ∧ t.byId r.1 = none := by
      intro r hr
      have hnone := h.newIds r hr
      rw [byId_insert] at hnone
      split at hnone
      · cases hnone
      · next hne => exact ⟨hne, hnone⟩
    have hother' : ∀ r ∈ rs, r.2 ≠ key ∧ t.byValue r.2 = none := by
      intro r hr
      have hnone := h.newKeys r hr
      rw [byValue_insert] at hnone
      split at hnone
      · cases hnone
      · next hne => exact ⟨hne, hnone⟩
    refine ⟨List.nodup_cons.mpr ⟨fun hmem => ?_, h.ids⟩,
      List.nodup_cons.mpr ⟨fun hmem => ?_, h.keys⟩,
      List.forall_mem_cons.mpr ⟨hid, fun r hr => (hother r hr).2⟩,
      List.forall_mem_cons.mpr ⟨hnew, fun r hr => (hother' r hr).2⟩,
      List.forall_mem_cons.mpr ⟨hsmall, h.small⟩⟩
    · obtain ⟨r, hr, heq⟩ := List.mem_map.mp hmem
      exact (hother r hr).1 heq
    · obtain ⟨r, hr, heq⟩ := List.mem_map.mp hmem
      exact (hother' r hr).1 heq

/-- **What the loop does with a record**: it stops where the record cannot be read, or where its id
or its value is in use, or goes on with the record inserted. -/
theorem loadLoop_cases (F : Facet K) (kindName : String) (t : Ingredient K) (maxId : UInt32)
    (bytes : List UInt8) (rest : List (List UInt8)) :
    (∃ e, F.keyed bytes = .error e ∧ (loadLoop F kindName t maxId (bytes :: rest)).2 = t) ∨
    (∃ r, F.keyed bytes = .ok r ∧ (t.byId r.1 ≠ none ∨ t.byValue r.2 ≠ none) ∧
      (loadLoop F kindName t maxId (bytes :: rest)).2.byId = t.byId ∧
      (loadLoop F kindName t maxId (bytes :: rest)).2.nextId = t.nextId) ∨
    (∃ id key v, F.keyed bytes = .ok (id, key) ∧ F.encode v = .ok key ∧ t.byId id = none ∧
      t.byValue key = none ∧ loadLoop F kindName t maxId (bytes :: rest) =
        loadLoop F kindName (t.insert key id v) (max maxId id) rest) := by
  unfold Facet.keyed
  simp only [loadLoop]
  cases hdec : F.decode bytes with
  | error e => exact .inl ⟨e, rfl, rfl⟩
  | ok rec =>
    obtain ⟨id, v⟩ := rec
    cases hkey : F.encode v with
    | error e =>
      refine .inl ⟨e, by simp only [hkey], ?_⟩
      simp only [hkey]
      split <;> rfl
    | ok key =>
      simp only [hkey]
      cases hid : t.byId id with
      | some v' =>
        exact .inr (.inl ⟨_, rfl, .inl (by rw [hid]; nofun), by simp⟩)
      | none =>
        cases hnew : t.byValue key with
        | some existing =>
          exact .inr (.inl ⟨_, rfl, .inr (by rw [hnew]; nofun), by simp⟩)
        | none => exact .inr (.inr ⟨id, key, v, rfl, hkey, hid, hnew, by simp⟩)

/-- **The loop of a load** leaves the invariant exactly if it comes to its end without the last id,
or has nothing to start from and stops at once. -/
theorem loadLoop_iff (h : Filling F t maxId) (records : List (List UInt8)) :
    (loadLoop F kindName t maxId records).2.Sound F ↔
      (maxId.toNat < 2 ^ 32 - 1 ∧
        ∃ rs, List.Forall₂ (fun bytes r => F.keyed bytes = .ok r) records rs ∧
        Fits t rs) ∨
      (∀ id, t.byId id = none) ∧ F.Refuses records := by
  induction records generalizing t maxId with
  | nil =>
    rw [show (loadLoop F kindName t maxId []).2 =
      { t with nextId := saturatingAdd maxId 1 } from rfl,
      h.end_iff]
    constructor
    · exact fun hsmall => .inl ⟨hsmall, [], .nil, .nil, .nil, nofun, nofun, nofun⟩
    · rintro (⟨hsmall, -⟩ | ⟨-, bytes, rest, e, hrecords, -⟩)
      · exact hsmall
      · cases hrecords
  | cons bytes rest ih =>
    obtain ⟨e, hkeyed, heq⟩ | ⟨r, hkeyed, hused, hbyId, hnext⟩ |
      ⟨id, key, v, hkeyed, hkey, hid, hnew, heq⟩ := loadLoop_cases F kindName t maxId bytes rest
    · -- the record cannot be read
      rw [heq, h.sound_iff]
      constructor
      · exact fun hnone => .inr ⟨hnone, bytes, rest, e, rfl, hkeyed⟩
      · rintro (⟨-, rs, hall, -⟩ | ⟨hnone, -⟩)
        · cases hall with
          | cons hr =>
            rw [hkeyed] at hr
            cases hr
        · exact hnone
    · -- the id or the value of the record is in use, and so some id is
      obtain ⟨id, v, hv⟩ : ∃ id v, t.byId id = some v := by
        rcases hused with hused | hused
        · obtain ⟨v, hv⟩ := Option.ne_none_iff_exists'.mp hused
          exact ⟨_, v, hv⟩
        · obtain ⟨id, hid⟩ := Option.ne_none_iff_exists'.mp hused
          obtain ⟨v, hv, -⟩ := h.inverse.byValue _ id hid
          exact ⟨id, v, hv⟩
      constructor
      · intro hsound
        have habove := UInt32.lt_iff_toNat_lt.mp (hsound.above id v (by rw [hbyId, hv]))
        rw [hnext, h.nextId] at habove
        exact absurd habove (Nat.not_lt_zero _)
      · rintro (⟨-, rs, hall, hfits⟩ | ⟨hnone, -⟩)
        · cases hall with
          | cons hr =>
            rw [hkeyed] at hr
            cases hr
            rcases hused with hused | hused
            · exact absurd (hfits.newIds _ (List.mem_cons_self ..)) hused
            · exact absurd (hfits.newKeys _ (List.mem_cons_self ..)) hused
        · rw [hnone] at hv
          cases hv
    · -- the record is inserted
      have hfull : ¬∀ id', (t.insert key id v).byId id' = none := by
        intro hnone
        have hv := hnone id
        rw [byId_insert, if_pos rfl] at hv
        cases hv
      have hmax : (max maxId id).toNat < 2 ^ 32 - 1 ↔
          maxId.toNat < 2 ^ 32 - 1 ∧ id.toNat < 2 ^ 32 - 1 := by
        obtain ⟨heq, hle⟩ | ⟨heq, hle⟩ := max_cases maxId id <;> rw [heq] <;> omega
      rw [heq, ih (h.insert hkey hid hnew)]
      constructor
      · rintro (⟨hlt, rs, hall, hfits⟩ | ⟨hnone, -⟩)
        · obtain ⟨hlt, hlt'⟩ := hmax.mp hlt
          exact .inl ⟨hlt, _, .cons hkeyed hall, (fits_cons hid hnew).mpr ⟨hlt', hfits⟩⟩
        · exact absurd hnone hfull
      · rintro (⟨hlt, rs, hall, hfits⟩ | ⟨-, bytes', rest', e, hrecords, herr⟩)
        · cases hall with
          | cons hr hall =>
            rw [hkeyed] at hr
            cases hr
            obtain ⟨hlt', hfits⟩ := (fits_cons (v := v) hid hnew).mp hfits
            exact .inl ⟨hmax.mpr ⟨hlt, hlt'⟩, _, hall, hfits⟩
        · cases hrecords
          rw [hkeyed] at herr
          cases herr

/-- **A load** leaves the invariant exactly if it keeps it. -/
theorem load_iff (F : Facet K) (kindName : String) (records : List (List UInt8)) :
    (loadRecords F kindName records).2.Sound F ↔ F.Accepts records ∨ F.Refuses records := by
  unfold loadRecords
  rw [loadLoop_iff filling_empty]
  constructor
  · rintro (⟨-, rs, hall, hfits⟩ | ⟨-, hrefuses⟩)
    · exact .inl ⟨rs, hall, hfits.ids, hfits.keys, hfits.small⟩
    · exact .inr hrefuses
  · rintro (⟨rs, hall, hids, hkeys, hsmall⟩ | hrefuses)
    · exact .inl ⟨by decide, rs, hall, hids, hkeys, fun _ _ => rfl, fun _ _ => rfl, hsmall⟩
    · exact .inr ⟨fun _ => rfl, hrefuses⟩

/-- **A call** on an ingredient with the invariant leaves it exactly if it keeps it. -/
theorem Ingredient.Sound.after_iff (h : t.Sound F) (c : Call K) :
    (t.after F kindName c).Sound F ↔ c.Keeps F t := by
  cases c with
  | intern value => exact h.intern_iff value
  | clear => exact ⟨fun _ => trivial, fun _ => sound_empty⟩
  | load records => exact load_iff F kindName records

end calls

/-! ## 5. Sequences of calls -/

/-- **What is asked of a sequence of calls**: the invariant after every call, and that an id that
`intern` returns reads back one value of the key it was returned for, and is not returned for
another, as long as nothing but `intern` is called. -/
structure Stable (F : Facet K) (kindName : String) (calls : List (Call K)) : Prop where
  sound : ∀ pre, pre <+: calls → (afterAll F kindName pre).Sound F
  stays : ∀ pre value id, pre ++ [.intern value] <+: calls →
    ((afterAll F kindName pre).intern F value).1 = .ok id →
      ∃ v, F.encode v = F.encode value ∧ ∀ mid, (∀ c ∈ mid, c.isIntern) →
        pre ++ .intern value :: mid <+: calls →
          (afterAll F kindName (pre ++ .intern value :: mid)).byId id = some v ∧
            ∀ value', ((afterAll F kindName (pre ++ .intern value :: mid)).intern F value').1 =
              .ok id → F.encode value' = F.encode value

section sequences

variable {F : Facet K} {kindName : String} {calls pre : List (Call K)}

theorem afterAll_append (pre : List (Call K)) (c : Call K) :
    afterAll F kindName (pre ++ [c]) = (afterAll F kindName pre).after F kindName c := by
  unfold afterAll
  rw [List.foldl_append]
  rfl

/-- An id that is in use keeps its value while nothing but `intern` is called. -/
theorem byId_afterAll (hsound : ∀ pre, pre <+: calls → (afterAll F kindName pre).Sound F)
    {id : UInt32} {v : K} (hv : (afterAll F kindName pre).byId id = some v) (mid : List (Call K))
    (hmid : ∀ c ∈ mid, c.isIntern) (hpre : pre ++ mid <+: calls) :
    (afterAll F kindName (pre ++ mid)).byId id = some v := by
  induction mid using List.reverseRecOn with
  | nil => rwa [List.append_nil]
  | append_singleton mid c ih =>
    rw [← List.append_assoc] at hpre ⊢
    have hbefore : pre ++ mid <+: calls := (List.prefix_append _ [c]).trans hpre
    have hkept := ih (fun c hc => hmid c (List.mem_append_left _ hc)) hbefore
    have hc := hmid c (List.mem_append_right _ (List.mem_singleton.mpr rfl))
    rw [afterAll_append]
    cases c with
    | intern value => exact (hsound _ hbefore).byId_intern value hkept
    | clear | load => cases hc

/-- **The invariant carries the ids.** -/
theorem stable_of_sound (hsound : ∀ pre, pre <+: calls → (afterAll F kindName pre).Sound F) :
    Stable F kindName calls where
  sound := hsound
  stays pre value id hpre hid := by
    have hbefore : pre <+: calls := (List.prefix_append _ _).trans hpre
    obtain ⟨v, hkey, hv⟩ := (hsound pre hbefore).reads_back hid
    refine ⟨v, hkey, fun mid hmid hrest => ?_⟩
    have hafter : (afterAll F kindName (pre ++ [.intern value])).byId id = some v := by
      rw [afterAll_append]
      exact hv
    rw [List.append_cons] at hrest ⊢
    have hlast := byId_afterAll hsound hafter mid hmid hrest
    exact ⟨hlast, fun value' hid' => ((hsound _ hrest).encode_of_intern hid' hlast).trans hkey⟩

/-- **The table is in order**, and ids are stable, in a sequence of calls, whatever they are and
whatever they return, exactly if each of them keeps the invariant. -/
theorem interning_table_invariant (F : Facet K) (kindName : String) (calls : List (Call K)) :
    Stable F kindName calls ↔
      ∀ pre c, pre ++ [c] <+: calls → c.Keeps F (afterAll F kindName pre) := by
  constructor
  · intro h pre c hpre
    have hbefore := h.sound pre ((List.prefix_append _ _).trans hpre)
    have hafter := h.sound _ hpre
    rw [afterAll_append] at hafter
    exact (hbefore.after_iff c).mp hafter
  · intro h
    refine stable_of_sound fun pre hpre => ?_
    induction pre using List.reverseRecOn with
    | nil => exact sound_empty
    | append_singleton pre c ih =>
      rw [afterAll_append]
      exact ((ih ((List.prefix_append _ [c]).trans hpre)).after_iff c).mpr (h pre c hpre)

end sequences

namespace Table

/-- Numbers that are their own keys; a record is an id and a number. -/
def facet : Facet Nat where
  encode n := .ok [UInt8.ofNat n]
  decode
    | [id, n] => .ok (id.toUInt32, n.toNat)
    | _ => .error (.decode "interned record" "unexpected end")

/-- A load is rejected after its first record, and the ingredient stays in use. -/
def rejected : List (Call Nat) := [.load [[0, 7], []], .intern 7, .intern 9]

end Table

open Table in
/-- **A rejected load forgets the next id.**  The record of 7 stays, under the id 0, and the next
id is 0: then 9 is interned under the id of 7. -/
theorem rejected_load_forgets_next_id : ¬ ∀ calls, Stable facet "words" calls := by
  intro h
  obtain ⟨v, -, hstays⟩ := (h rejected).stays [.load [[0, 7], []]] 7 0
    ⟨[.intern 9], rfl⟩ rfl
  obtain ⟨-, hother⟩ := hstays [] nofun ⟨[.intern 9], rfl⟩
  have hsame := hother 9 rfl
  revert hsame
  decide

end Interning

end Picante

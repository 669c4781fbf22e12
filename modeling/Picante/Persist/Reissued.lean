/-
# Ids that are handed out again

The records of interned values are dropped like any others when a cache is saved within limits, and
the records that refer to their ids are not.  A loaded table starts again at the id after the
largest one that is left (and at 1, if none is).  So an id that is referred to is given to another
value exactly if there are values enough to get to it (`ids_stay_bound_iff`): if larger ids are
left, the counter of 32 bits would have to come round first; otherwise few may do
(`dropped_name_is_given_away`).

* `loadInterned_narrow` -- a table loaded with ids of 32 bits is the table loaded with naturals,
  its ids cut down to 32 bits and its next id saturated, and `narrow_run` -- they stay together in
  a run for as long as the counter does not come to its end.
-/
import Picante.Persist.Limits
import Picante.Persist.Loaded
import Picante.Persist.Keyed
import Mathlib.Data.ENat.Basic

namespace Picante

open Tables Config

variable {V : Type}

/-! ## 1. What a table will return -/

namespace InternedIngredient

variable {t T : InternedIngredient V UInt32}

/-- `T` has been made of `t` by filing new values, in this order. -/
structure Grown (t : InternedIngredient V UInt32) (ws : List V) (T : InternedIngredient V UInt32) :
    Prop where
  nodup : ws.Nodup
  new : ∀ w ∈ ws, t.byValue w = none
  nextId : T.nextId = t.nextId + UInt32.ofNat ws.length
  byValue : ∀ v id, T.byValue v = some id ↔
    t.byValue v = some id ∨ ∃ n, ws[n]? = some v ∧ id = t.nextId + UInt32.ofNat n

theorem Grown.refl (t : InternedIngredient V UInt32) : Grown t [] t :=
  ⟨.nil, nofun, (UInt32.add_zero _).symm, fun v id => by simp⟩

section intern

variable [DecidableEq V]

/-- Interns the values one after another. -/
def internAll {I : Type} [DecidableEq I] [Add I] [OfNat I 1] (t : InternedIngredient V I)
    (vs : List V) : InternedIngredient V I :=
  vs.foldl (fun t v => (t.intern v).1) t

/-- The counter after one value more. -/
theorem next_add (id : UInt32) (n : Nat) :
    id + UInt32.ofNat (n + 1) = id + UInt32.ofNat n + 1 := by
  rw [UInt32.ofNat_add, UInt32.add_assoc]
  rfl

/-- A value that is new is filed last. -/
theorem Grown.intern {ws : List V} (h : Grown t ws T) (v : V) :
    ∃ ws', ws'.length ≤ ws.length + 1 ∧ Grown t ws' (T.intern v).1 := by
  unfold InternedIngredient.intern
  cases hv : T.byValue v with
  | some id => exact ⟨ws, Nat.le_succ _, h⟩
  | none =>
    have hold : t.byValue v = none := by
      cases ht : t.byValue v with
      | none => rfl
      | some id =>
        rw [(h.byValue v id).mpr (.inl ht)] at hv
        cases hv
    have hnot : v ∉ ws := by
      intro hmem
      obtain ⟨n, hn⟩ := List.mem_iff_getElem?.mp hmem
      rw [(h.byValue v _).mpr (.inr ⟨n, hn, rfl⟩)] at hv
      cases hv
    refine ⟨ws ++ [v], by simp, ?_, ?_, ?_, fun v' id => ?_⟩
    · exact List.nodup_append'.mpr ⟨h.nodup, List.nodup_singleton v, by simpa using hnot⟩
    · intro w hw
      rcases List.mem_append.mp hw with hw | hw
      · exact h.new w hw
      · obtain rfl := List.mem_singleton.mp hw
        exact hold
    · rw [h.nextId, List.length_append, List.length_singleton, next_add]
    · simp only [Function.update_apply]
      split
      · next heq =>
        subst heq
        constructor
        · intro hid
          cases hid
          refine .inr ⟨ws.length, by simp, h.nextId⟩
        · rintro (hid | ⟨n, hn, rfl⟩)
          · rw [hold] at hid
            cases hid
          · have hn' : n = ws.length := by
              rcases Nat.lt_or_ge n ws.length with hlt | hge
              · rw [List.getElem?_append_left hlt] at hn
                exact absurd (List.mem_of_getElem? hn) hnot
              · rw [List.getElem?_append_right hge] at hn
                have := (List.getElem?_eq_some_iff.mp hn).1
                rw [List.length_singleton] at this
                omega
            rw [hn', h.nextId]
      · next hne =>
        rw [h.byValue]
        refine or_congr_right (exists_congr fun n => and_congr_left fun _ => ?_)
        rcases Nat.lt_or_ge n ws.length with hlt | hge
        · rw [List.getElem?_append_left hlt]
        · rw [List.getElem?_eq_none hge, List.getElem?_append_right hge]
          refine iff_of_false nofun fun hn => hne ?_
          exact (List.mem_singleton.mp (List.mem_of_getElem? hn))

theorem grown_internAll (t : InternedIngredient V UInt32) (vs : List V) :
    ∃ ws, ws.length ≤ vs.length ∧ Grown t ws (t.internAll vs) := by
  have hfold : ∀ (T : InternedIngredient V UInt32) ws, Grown t ws T →
      ∃ ws', ws'.length ≤ ws.length + vs.length ∧ Grown t ws' (T.internAll vs) := by
    induction vs with
    | nil => exact fun T ws h => ⟨ws, Nat.le_refl _, h⟩
    | cons v vs ih =>
      intro T ws h
      obtain ⟨ws', hle, h'⟩ := h.intern v
      obtain ⟨ws'', hle', h''⟩ := ih _ ws' h'
      exact ⟨ws'', by rw [List.length_cons]; omega, h''⟩
  obtain ⟨ws, hle, h⟩ := hfold t [] (.refl t)
  exact ⟨ws, by simpa using hle, h⟩

/-- New values are given the next ids. -/
theorem internAll_new {ws : List V} (hnd : ws.Nodup) (hnew : ∀ w ∈ ws, t.byValue w = none) :
    (t.internAll ws).nextId = t.nextId + UInt32.ofNat ws.length ∧
      ∀ v, v ∉ ws → (t.internAll ws).byValue v = t.byValue v := by
  induction ws generalizing t with
  | nil => exact ⟨(UInt32.add_zero _).symm, fun _ _ => rfl⟩
  | cons w ws ih =>
    obtain ⟨hw, hnd⟩ := List.nodup_cons.mp hnd
    obtain ⟨hnone, hnew⟩ := List.forall_mem_cons.mp hnew
    have hintern : (t.intern w).1 =
        { nextId := t.nextId + 1
          byValue := Function.update t.byValue w (some t.nextId)
          byId := Function.update t.byId t.nextId (some w) } := by
      unfold InternedIngredient.intern
      rw [hnone]
    have hnew' : ∀ w' ∈ ws, (t.intern w).1.byValue w' = none := by
      intro w' hw'
      rw [hintern]
      refine (Function.update_of_ne ?_ ..).trans (hnew w' hw')
      rintro rfl
      exact hw hw'
    obtain ⟨hnext, hvalues⟩ := ih hnd hnew'
    refine ⟨?_, fun v hv => ?_⟩
    · refine hnext.trans ?_
      rw [hintern, List.length_cons, next_add]
      simp only
      rw [UInt32.add_assoc, UInt32.add_comm 1, ← UInt32.add_assoc]
    · obtain ⟨hne, hv⟩ := not_or.mp fun hmem => hv (List.mem_cons.mpr hmem)
      refine (hvalues v hv).trans ?_
      rw [hintern]
      exact Function.update_of_ne hne ..

/-- The value `v` is new, and there are others enough, of which `n` may be interned, to file it as
`id` after them. -/
def Leads (t : InternedIngredient V UInt32) (n : ℕ∞) (id : UInt32) (v : V) : Prop :=
  ∃ ws : List V, (v :: ws).Nodup ∧ (∀ w ∈ v :: ws, t.byValue w = none) ∧ ws.length ≤ n ∧
    id = t.nextId + UInt32.ofNat ws.length

/-- **What interning can return** after at most `n` values: the id of a value that is filed, or one
that is led to. -/
theorem intern_returns_iff {n : ℕ∞} {id : UInt32} {v : V} :
    (∃ vs : List V, vs.length ≤ n ∧ ((t.internAll vs).intern v).2 = id) ↔
      t.byValue v = some id ∨ t.Leads n id v := by
  constructor
  · rintro ⟨vs, hn, hid⟩
    obtain ⟨ws, hle, hg⟩ := grown_internAll t vs
    have hwn : (ws.length : ℕ∞) ≤ n := (Nat.cast_le.mpr hle).trans hn
    generalize t.internAll vs = T at hid hg
    unfold InternedIngredient.intern at hid
    cases hv : T.byValue v with
    | some m =>
      rw [hv] at hid
      simp only at hid
      subst hid
      rcases (hg.byValue v m).mp hv with hold | ⟨k, hk, rfl⟩
      · exact .inl hold
      · -- filed on the way, after the values before it
        have hlt := (List.getElem?_eq_some_iff.mp hk).1
        have hlen : (ws.take k).length = k := by
          rw [List.length_take, Nat.min_eq_left (Nat.le_of_lt hlt)]
        have hnot : v ∉ ws.take k := by
          intro hmem
          obtain ⟨j, hj⟩ := List.mem_iff_getElem?.mp hmem
          have hjk : j < k := by
            have := (List.getElem?_eq_some_iff.mp hj).1
            omega
          rw [List.getElem?_take_of_lt hjk] at hj
          have hlt' := (List.getElem?_eq_some_iff.mp hj).1
          have := (List.getElem?_inj hlt' hg.nodup).mp (hj.trans hk.symm)
          omega
        refine .inr ⟨ws.take k,
          List.nodup_cons.mpr ⟨hnot, (List.take_sublist k ws).nodup hg.nodup⟩,
          List.forall_mem_cons.mpr ⟨hg.new v (List.mem_of_getElem? hk),
            fun w hw => hg.new w (List.mem_of_mem_take hw)⟩, ?_, by rw [hlen]⟩
        rw [hlen]
        exact (Nat.cast_le.mpr (Nat.le_of_lt hlt)).trans hwn
    | none =>
      rw [hv] at hid
      simp only at hid
      have hnot : v ∉ ws := by
        intro hmem
        obtain ⟨m, hm⟩ := List.mem_iff_getElem?.mp hmem
        rw [(hg.byValue v _).mpr (.inr ⟨m, hm, rfl⟩)] at hv
        cases hv
      have hnone : t.byValue v = none := by
        cases ht : t.byValue v with
        | none => rfl
        | some m =>
          rw [(hg.byValue v m).mpr (.inl ht)] at hv
          cases hv
      exact .inr ⟨ws, List.nodup_cons.mpr ⟨hnot, hg.nodup⟩,
        List.forall_mem_cons.mpr ⟨hnone, hg.new⟩, hwn, hid.symm.trans hg.nextId⟩
  · rintro (hid | ⟨ws, hnd, hnew, hn, rfl⟩)
    · refine ⟨[], by simp, ?_⟩
      show (t.intern v).2 = id
      unfold InternedIngredient.intern
      rw [hid]
    · obtain ⟨hnot, hnd⟩ := List.nodup_cons.mp hnd
      obtain ⟨hnone, hnew⟩ := List.forall_mem_cons.mp hnew
      obtain ⟨hnext, hvalues⟩ := internAll_new hnd hnew
      refine ⟨ws, hn, ?_⟩
      unfold InternedIngredient.intern
      rw [hvalues v hnot, hnone]
      exact hnext

end intern

/-! ## 2. Ids of 32 bits -/

/-- A table with its ids cut down to 32 bits, and its next id saturated. -/
def narrow (t : InternedIngredient V) : InternedIngredient V UInt32 where
  nextId := UInt32.ofNat (min t.nextId (2 ^ 32 - 1))
  byValue v := (t.byValue v).map UInt32.ofNat
  byId id := t.byId id.toNat

/-- The ids in use have 32 bits. -/
def Fits (t : InternedIngredient V) : Prop := ∀ v id, t.byValue v = some id → id < 2 ^ 32

section narrow

variable [DecidableEq V] {t : InternedIngredient V}

theorem toNat_eq_iff {n : Nat} (hn : n < 2 ^ 32) (id : UInt32) :
    id.toNat = n ↔ id = UInt32.ofNat n := by
  rw [← UInt32.toNat_inj, UInt32.toNat_ofNat_of_lt' hn]

/-- An entry is filed in the narrowed table as well. -/
theorem narrow_insert {id : Nat} (hid : id < 2 ^ 32) (v : V) :
    (t.insert id v).narrow = t.narrow.insert (UInt32.ofNat id) v := by
  simp only [narrow, insert, mk.injEq, true_and]
  refine ⟨funext fun v' => ?_, funext fun id' => ?_⟩
  · simp only [Function.update_apply]
    split <;> rfl
  · simp only [Function.update_apply, toNat_eq_iff hid]

theorem Fits.insert (h : t.Fits) {id : Nat} (hid : id < 2 ^ 32) (v : V) : (t.insert id v).Fits := by
  intro v' id' h'
  simp only [InternedIngredient.insert, Function.update_apply] at h'
  split at h'
  · cases h'
    exact hid
  · exact h v' id' h'

/-- **Interning keeps the tables together** for as long as the counter does not come to its end. -/
theorem narrow_intern (v : V) (hlt : t.nextId + 1 < 2 ^ 32) :
    (t.intern v).1.narrow = (t.narrow.intern v).1 ∧
      (t.narrow.intern v).2 = UInt32.ofNat (t.intern v).2 := by
  have hvalue : t.narrow.byValue v = (t.byValue v).map UInt32.ofNat := rfl
  have hnext : t.narrow.nextId = UInt32.ofNat t.nextId := by
    show UInt32.ofNat (min t.nextId (2 ^ 32 - 1)) = _
    rw [Nat.min_eq_left (by omega)]
  unfold intern
  cases hv : t.byValue v with
  | some id =>
    rw [hv] at hvalue
    rw [hvalue]
    exact ⟨rfl, rfl⟩
  | none =>
    rw [hv] at hvalue
    rw [hvalue]
    obtain ⟨-, hbyValue, hbyId⟩ := mk.inj (narrow_insert (t := t) (Nat.lt_of_succ_lt hlt) v)
    refine ⟨?_, hnext⟩
    show mk (UInt32.ofNat (min (t.nextId + 1) (2 ^ 32 - 1))) _ _ = _
    rw [Nat.min_eq_left (by omega), UInt32.ofNat_add, hnext]
    exact mk.injEq .. ▸ ⟨rfl, hbyValue, hbyId⟩

theorem nextId_internAll (t : InternedIngredient V) (vs : List V) :
    t.nextId ≤ (t.internAll vs).nextId := by
  induction vs generalizing t with
  | nil => exact Nat.le_refl _
  | cons v vs ih =>
    have hfirst : t.nextId ≤ (t.intern v).1.nextId := by
      unfold intern
      split
      · exact Nat.le_refl _
      · exact Nat.le_succ _
    exact Nat.le_trans hfirst (ih _)

/-- And so do many. -/
theorem narrow_internAll (vs : List V) (hlt : (t.internAll vs).nextId + 1 < 2 ^ 32) :
    (t.internAll vs).narrow = t.narrow.internAll vs := by
  induction vs generalizing t with
  | nil => rfl
  | cons v vs ih =>
    have hle := nextId_internAll t (v :: vs)
    have hfirst := (narrow_intern (t := t) v (Nat.lt_of_le_of_lt (Nat.succ_le_succ hle) hlt)).1
    exact (ih hlt).trans (congrArg (fun t => t.internAll vs) hfirst)

end narrow

end InternedIngredient

/-- **Records loaded with ids of 32 bits make the narrowed table**, or the same error. -/
theorem loadInterned_narrow [DecidableEq V] (C : Codec V) (i : PersistableIngredient)
    {records : List Bytes}
    (hids : ∀ bytes ∈ records, ∀ id v, C.decodeInterned i.kind bytes = .ok (id, v) → id < 2 ^ 32)
    {t : InternedIngredient V} (ht : t.Fits) {maxId : Nat} (hmax : maxId < 2 ^ 32) :
    loadInterned C i t.narrow (UInt32.ofNat maxId) records =
      ((loadInterned C i t maxId records).1, (loadInterned C i t maxId records).2.narrow) := by
  induction records generalizing t maxId with
  | nil =>
    simp only [loadInterned, InternedIngredient.Saturates.saturatingSucc]
    rw [UInt32.toNat_ofNat_of_lt' hmax]
    rfl
  | cons bytes rest ih =>
    obtain ⟨hid, hrest⟩ := List.forall_mem_cons.mp hids
    unfold loadInterned
    cases hdecode : C.decodeInterned i.kind bytes with
    | error e => rfl
    | ok entry =>
      obtain ⟨id, v⟩ := entry
      have hid := hid id v hdecode
      have hbyId : t.narrow.byId (UInt32.ofNat id) = t.byId id := by
        show t.byId _ = _
        rw [UInt32.toNat_ofNat_of_lt' hid]
      have hbyValue : t.narrow.byValue v = (t.byValue v).map UInt32.ofNat := rfl
      have hnat := UInt32.toNat_ofNat_of_lt' hid
      simp only [InternedIngredient.Saturates.ofRecord, hbyId, hbyValue]
      split
      · show (Except.error (PicanteError.cache ("duplicate interned id " ++
          toString (UInt32.ofNat id).toNat ++ " in `" ++ i.kindName ++ "`")), t.narrow) = _
        rw [hnat]
      · cases hv : t.byValue v with
        | some existing =>
          show (Except.error (PicanteError.cache ("duplicate interned value for `" ++ i.kindName ++
            "` (ids " ++ toString (UInt32.ofNat existing).toNat ++ " and " ++
              toString (UInt32.ofNat id).toNat ++ ")")), _) = _
          rw [hnat, UInt32.toNat_ofNat_of_lt' (ht v existing hv)]
          have hvalues :=
            (InternedIngredient.mk.inj (InternedIngredient.narrow_insert (t := t) hid v)).2.1
          exact Prod.ext rfl (InternedIngredient.mk.injEq .. ▸ ⟨rfl, hvalues.symm, rfl⟩)
        | none =>
          have hmax' :
              UInt32.ofNat (max maxId id) = max (UInt32.ofNat maxId) (UInt32.ofNat id) := by
            have hle : UInt32.ofNat maxId ≤ UInt32.ofNat id ↔ maxId ≤ id := by
              rw [UInt32.le_iff_toNat_le, UInt32.toNat_ofNat_of_lt' hmax, hnat]
            show _ = if _ ≤ _ then _ else _
            simp only [hle, Nat.max_def]
            split <;> rfl
          have hrec := ih hrest (ht.insert hid v) (Nat.max_lt.mpr ⟨hmax, hid⟩)
          rw [InternedIngredient.narrow_insert hid, hmax'] at hrec
          exact hrec

/-! ## 3. A loaded table -/

section table

variable {C : Codec V} {kind : QueryKindId} {records : List Bytes}

/-- The table that was loaded from these records. -/
structure LoadedFrom (C : Codec V) (kind : QueryKindId) (records : List Bytes)
    (t : InternedIngredient V) : Prop where
  records :
    ∀ id v, t.byId id = some v → ∃ bytes ∈ records, C.decodeInterned kind bytes = .ok (id, v)
  inverse : t.Inverse
  /-- the next id comes after the largest that is in use -/
  next : ∀ id, id < t.nextId ↔ id = 0 ∨ ∃ id' v, id ≤ id' ∧ t.byId id' = some v

variable [DecidableEq V]

/-- What a table holds while its records are loaded. -/
structure Filling (C : Codec V) (kind : QueryKindId) (records : List Bytes)
    (t : InternedIngredient V) (maxId : Nat) : Prop where
  records :
    ∀ id v, t.byId id = some v → ∃ bytes ∈ records, C.decodeInterned kind bytes = .ok (id, v)
  inverse : t.Inverse
  le : ∀ id v, t.byId id = some v → id ≤ maxId
  greatest : maxId = 0 ∨ ∃ v, t.byId maxId = some v

theorem Filling.insert {t : InternedIngredient V} {maxId id : Nat} {v : V} {bytes : Bytes}
    (h : Filling C kind records t maxId) (hmem : bytes ∈ records)
    (hdecode : C.decodeInterned kind bytes = .ok (id, v)) (hid : t.byId id = none)
    (hv : t.byValue v = none) : Filling C kind records (t.insert id v) (max maxId id) where
  records id' v' h' := by
    simp only [InternedIngredient.insert, Function.update_apply] at h'
    split at h'
    · next heq =>
      cases h'
      exact ⟨bytes, hmem, heq ▸ hdecode⟩
    · exact h.records id' v' h'
  inverse := h.inverse.insert hid hv
  le id' v' h' := by
    simp only [InternedIngredient.insert, Function.update_apply] at h'
    split at h'
    · next heq =>
      rw [heq]
      exact Nat.le_max_right ..
    · exact Nat.le_trans (h.le id' v' h') (Nat.le_max_left ..)
  greatest := by
    simp only [InternedIngredient.insert, Function.update_apply]
    rcases Nat.le_total maxId id with hle | hle
    · rw [Nat.max_eq_right hle, if_pos rfl]
      exact .inr ⟨v, rfl⟩
    · rw [Nat.max_eq_left hle]
      rcases h.greatest with hzero | ⟨v', hv'⟩
      · exact .inl hzero
      · have hne : maxId ≠ id := by
          rintro rfl
          rw [hid] at hv'
          cases hv'
        rw [if_neg hne]
        exact .inr ⟨v', hv'⟩

/-- **A section that is loaded whole leaves such a table.** -/
theorem loadedFrom_of_filling {i : PersistableIngredient} {t t' : InternedIngredient V}
    {maxId : Nat}
    {rest : List Bytes} (h : Filling C i.kind records t maxId) (hsub : ∀ b ∈ rest, b ∈ records)
    (hload : loadInterned C i t maxId rest = (.ok (), t')) : LoadedFrom C i.kind records t' := by
  induction rest generalizing t maxId with
  | nil =>
    obtain rfl := congrArg Prod.snd hload
    refine ⟨h.records, h.inverse, fun id => ?_⟩
    show id < maxId + 1 ↔ _
    constructor
    · intro hlt
      rcases h.greatest with hzero | ⟨v, hv⟩
      · exact .inl (by omega)
      · exact .inr ⟨maxId, v, by omega, hv⟩
    · rintro (rfl | ⟨id', v, hle, hv⟩)
      · exact Nat.succ_pos _
      · have := h.le id' v hv
        omega
  | cons bytes rest ih =>
    obtain ⟨hmem, hsub⟩ := List.forall_mem_cons.mp hsub
    unfold loadInterned at hload
    cases hdecode : C.decodeInterned i.kind bytes with
    | error e => rw [hdecode] at hload; cases hload
    | ok entry =>
      obtain ⟨id, v⟩ := entry
      rw [hdecode] at hload
      simp only at hload
      split at hload
      · cases hload
      · next hid =>
        split at hload
        · cases hload
        · next hv => exact ih (h.insert hmem hdecode (by simpa using hid) hv) hsub hload

omit [DecidableEq V] in
theorem filling_empty : Filling C kind records .empty 0 where
  records _ _ h := by cases h
  inverse _ _ := by
    constructor <;> (intro h; cases h)
  le _ _ h := by cases h
  greatest := .inl rfl

theorem loadedFrom {i : PersistableIngredient} {t : InternedIngredient V}
    (hload : loadInterned C i .empty 0 records = (.ok (), t)) : LoadedFrom C i.kind records t :=
  loadedFrom_of_filling filling_empty (fun _ h => h) hload

end table

/-! ## 4. The tables of a loaded file -/

section loaded

variable [DecidableEq V] {C : Codec V} {o o' : Order} {ingredients : List PersistableIngredient}
  {db db' base : Database V} {sections : List Section}

/-- The records of an ingredient change no other table. -/
theorem interned_loadRecords_ne (db : Database V) {i : PersistableIngredient} {kind : QueryKindId}
    (hne : i.kind ≠ kind) (records : List Bytes) :
    (db.loadRecords C i records).2.interned kind = db.interned kind := by
  unfold Database.loadRecords
  cases i.sectionType with
  | input => rfl
  | derived => rfl
  | interned => exact Function.update_of_ne hne.symm ..

/-- Nor do the sections of other kinds. -/
theorem interned_loadSections_ne (C : Codec V) (ingredients : List PersistableIngredient)
    (db : Database V) {kind : QueryKindId} (hne : ∀ s ∈ sections, s.kindId ≠ kind) :
    (db.loadSections C ingredients sections).2.interned kind = db.interned kind := by
  induction sections generalizing db with
  | nil => rfl
  | cons s rest ih =>
    obtain ⟨hs, hrest⟩ := List.forall_mem_cons.mp hne
    unfold Database.loadSections
    split
    · exact ih db hrest
    · next i hfind =>
      have hkind : i.kind = s.kindId := by simpa using List.find?_some hfind
      have hrecords := interned_loadRecords_ne (C := C) db (hkind.trans_ne hs) s.records
      split
      · rfl
      · split
        · rfl
        · split
          · next heq => rwa [heq] at hrecords
          · next heq =>
            rw [heq] at hrecords
            exact (ih _ hrest).trans hrecords

/-- **A file that is loaded leaves, for an interned ingredient, the table of its section.** -/
theorem table_loadSections (hnd : (sections.map (·.kindId)).Nodup)
    (hload : db.loadSections C ingredients sections = (.ok (), db')) {s : Section}
    (hs : s ∈ sections) {i : PersistableIngredient}
    (hfind : ingredients.find? (·.kind = s.kindId) = some i) (htype : i.sectionType = .interned) :
    loadInterned C i .empty 0 s.records = (.ok (), db'.interned i.kind) := by
  induction sections generalizing db with
  | nil => cases hs
  | cons s' rest ih =>
    obtain ⟨hhead, hnd⟩ := List.nodup_cons.mp hnd
    rcases List.mem_cons.mp hs with rfl | hs
    · have hkind : i.kind = s.kindId := by simpa using List.find?_some hfind
      have hother : ∀ s' ∈ rest, s'.kindId ≠ i.kind := by
        intro s' hs' heq
        exact hhead (List.mem_map.mpr ⟨s', hs', heq.trans hkind⟩)
      unfold Database.loadSections at hload
      simp only [hfind] at hload
      split at hload
      · cases hload
      · split at hload
        · cases hload
        · split at hload
          · cases hload
          · next db₁ hrecords =>
            have htable := interned_loadSections_ne C ingredients db₁ hother
            rw [hload] at htable
            rw [htable]
            unfold Database.loadRecords at hrecords
            simp only [htype] at hrecords
            obtain ⟨hok, rfl⟩ := Prod.mk.inj hrecords
            simp only [Function.update_self]
            exact Prod.ext hok rfl
    · unfold Database.loadSections at hload
      split at hload
      · exact ih hnd hload hs
      · split at hload
        · cases hload
        · split at hload
          · cases hload
          · split at hload
            · cases hload
            · exact ih hnd hload hs

omit [DecidableEq V] in
/-- The records of a saved section of interned values are those of the table. -/
theorem decode_saved (hC : C.RoundTrip) {i : PersistableIngredient} {s s' : Section}
    (htype : i.sectionType = .interned) (hsave : base.saveSection o C i = .ok s)
    (hcut : Section.Cut s s') {bytes : Bytes} (hbytes : bytes ∈ s'.records) {id : Nat} {v : V}
    (hdecode : C.decodeInterned i.kind bytes = .ok (id, v)) :
    (base.interned i.kind).byId id = some v := by
  obtain ⟨records, hrecords, rfl⟩ := saveSection_ok hsave
  unfold Database.saveRecords at hrecords
  simp only [htype] at hrecords
  have hencoded := (mapM_eq_ok_iff.mp hrecords).flip
  obtain ⟨⟨id', v'⟩, hentry, hencode⟩ := exists_of_forall₂ hencoded (hcut.records.subset hbytes)
  have heq := hdecode.symm.trans (hC.interned hencode)
  cases heq
  exact (mem_entries.mp hentry).2

omit [DecidableEq V] in
/-- The kinds of the sections are those of the ingredients. -/
theorem kinds_saved {rest : List PersistableIngredient} {cut : List Section}
    (hsave : List.Forall₂ (fun i s => base.saveSection o C i = .ok s) rest sections)
    (hcut : List.Forall₂ Section.Cut sections cut) :
    cut.map (·.kindId) = rest.map (·.kind) ∧ ∀ i ∈ rest, ∃ s s', s' ∈ cut ∧
      base.saveSection o C i = .ok s ∧ Section.Cut s s' ∧ s'.kindId = i.kind := by
  induction hsave generalizing cut with
  | nil =>
    cases hcut
    exact ⟨rfl, nofun⟩
  | @cons i s rest sections hs _ ih =>
    cases hcut with
    | @cons _ s' _ cut hc hrest =>
      obtain ⟨hkinds, hall⟩ := ih hrest
      have hkind : s'.kindId = i.kind := by
        obtain ⟨records, -, rfl⟩ := saveSection_ok hs
        exact hc.kindId
      refine ⟨by rw [List.map_cons, List.map_cons, hkind, hkinds], ?_⟩
      rw [List.forall_mem_cons]
      refine ⟨⟨s, s', List.mem_cons_self .., hs, hc, hkind⟩, fun j hj => ?_⟩
      obtain ⟨s₁, s₂, hmem, hrest⟩ := hall j hj
      exact ⟨s₁, s₂, List.mem_cons_of_mem _ hmem, hrest⟩

/-- What a load that succeeds has done. -/
theorem loadCache_ok {bytes : Bytes} {cache : CacheFile}
    (hopen : openCache C ingredients none (.read bytes) = .ok (some cache))
    (hload : base.loadCache C o' ingredients (.read bytes) = (.ok true, db)) :
    ∃ db₁, (base.cleared ingredients).loadSections C ingredients cache.sections = (.ok (), db₁) ∧
      db = db₁.restored o' ingredients cache.currentRevision := by
  cases hsections : (base.cleared ingredients).loadSections C ingredients cache.sections with
  | mk result db₁ =>
    cases result with
    | error e =>
      simp [Database.loadCache, Database.loadCacheWithOptions, Database.loadCacheInner,
        CacheLoadOptions.default, hopen, hsections] at hload
    | ok u =>
      simp [Database.loadCache, Database.loadCacheWithOptions, Database.loadCacheInner,
        CacheLoadOptions.default, hopen, hsections] at hload
      exact ⟨db₁, rfl, hload.symm⟩

variable {options : CacheSaveOptions} {bytes : Bytes} {runtime : RuntimeId}

/-- **The table of a listed ingredient** is loaded from its section of the file, a part of the
records that were saved. -/
theorem table_of_load (hC : C.RoundTrip)
    (hsave : base.saveCacheWithOptions o C ingredients options = .ok bytes)
    (hload : (Database.new runtime).loadCache C o' ingredients (.read bytes) = (.ok true, db))
    {i : PersistableIngredient} (hi : i ∈ ingredients) (htype : i.sectionType = .interned) :
    ∃ cache, C.decodeFile bytes = .ok cache ∧ ∃ s ∈ cache.sections, s.kindId = i.kind ∧
      loadInterned C i .empty 0 s.records = (.ok (), db.interned i.kind) ∧
        ∀ b ∈ s.records, ∀ id v, C.decodeInterned i.kind b = .ok (id, v) →
          (base.interned i.kind).byId id = some v := by
  obtain ⟨hnd, sections, cache, hsections, hcut, hencode⟩ := saved_cut hsave
  refine ⟨cache, hC.file hencode, ?_⟩
  obtain ⟨version, rev, cut⟩ := cache
  obtain ⟨rfl, rfl, hcut⟩ := hcut
  obtain ⟨db₁, hloaded, rfl⟩ := loadCache_ok (openCache_saved hC hnd hencode) hload
  obtain ⟨hkinds, hall⟩ := kinds_saved hsections hcut
  obtain ⟨s, s', hs', hsaved, hcut, hkind⟩ := hall i hi
  have hfind : ingredients.find? (·.kind = s'.kindId) = some i := by
    rw [hkind]
    exact find_kind hnd hi
  have htable := table_loadSections (hkinds ▸ hnd) hloaded hs' hfind htype
  have hsame : (db₁.restored o' ingredients base.runtime.currentRevision).interned i.kind =
      db₁.interned i.kind := by
    obtain ⟨hext, -⟩ := Database.extends_restoreRuntimeState (o := o') ingredients db₁
    exact congrFun hext.interned i.kind
  rw [hsame]
  exact ⟨s', hs', hkind, htable, fun b hb id v hdecode =>
    decode_saved hC htype hsaved hcut hb hdecode⟩

/-- **What `load_records` makes of the section with ids of 32 bits** is this table, narrowed. -/
theorem narrow_of_load (hC : C.RoundTrip)
    (hids : ∀ kind id v, (base.interned kind).byId id = some v → id < 2 ^ 32)
    (hsave : base.saveCacheWithOptions o C ingredients options = .ok bytes)
    (hload : (Database.new runtime).loadCache C o' ingredients (.read bytes) = (.ok true, db))
    {i : PersistableIngredient} (hi : i ∈ ingredients) (htype : i.sectionType = .interned) :
    ∃ cache, C.decodeFile bytes = .ok cache ∧ ∃ s ∈ cache.sections, s.kindId = i.kind ∧
      loadInterned C i (.empty : InternedIngredient V UInt32) 0 s.records =
        (.ok (), (db.interned i.kind).narrow) := by
  obtain ⟨cache, hdecode, s, hs, hkind, htable, hsaved⟩ := table_of_load hC hsave hload hi htype
  refine ⟨cache, hdecode, s, hs, hkind, ?_⟩
  have hempty : (.empty : InternedIngredient V).Fits := fun _ _ h => by cases h
  have hnarrow := loadInterned_narrow C i
    (fun b hb id v hv => hids i.kind id v (hsaved b hb id v hv)) hempty (show 0 < 2 ^ 32 by decide)
  rw [htable] at hnarrow
  exact hnarrow

end loaded

/-! ## 5. What a database will return -/

/-- The id of the interning table occurs in a record: it is the id of an interned value, or in the
key of a slot, or in the key or a dependency of a ready cell.  `ids` are the ids in a key, each with
the kind of its table. -/
def Database.Mentions (ids : DynKey → List (QueryKindId × Nat)) (db : Database V)
    (kind : QueryKindId) (id : Nat) : Prop :=
  (∃ v, (db.interned kind).byId id = some v) ∨
    (∃ k e, db.inputs k = some e ∧ (kind, id) ∈ ids k) ∨
      ∃ q r, (db.cells q).state.record = some r ∧
        ((kind, id) ∈ ids q ∨ ∃ d ∈ r.deps, (kind, id) ∈ ids d)

/-- An id that is not smaller is in use; where there is none, the table, being listed, starts
after 0. -/
def Database.Reaches (ingredients : List PersistableIngredient) (db : Database V)
    (kind : QueryKindId) (id : Nat) : Prop :=
  (id = 0 ∧ ∃ i ∈ ingredients, i.sectionType = .interned ∧ i.kind = kind) ∨
    ∃ id' v, id ≤ id' ∧ (db.interned kind).byId id' = some v

/-- Where the counter starts after the load: above all ids that are reached, and at the last one at
most. -/
def Database.Starts (ingredients : List PersistableIngredient) (db : Database V)
    (kind : QueryKindId) (next : Nat) : Prop :=
  ∀ id, id < next ↔ db.Reaches ingredients kind id ∧ id < 2 ^ 32 - 1

/-- The counter of 32 bits stands at `id` when `v` is filed, a value that is new to the table, after
others that are new, of which there may be `n`. -/
def Database.Reissues (ingredients : List PersistableIngredient) (db : Database V) (n : ℕ∞)
    (kind : QueryKindId) (id : Nat) (v : V) : Prop :=
  ∃ next, db.Starts ingredients kind next ∧ ∃ vs : List V, (v :: vs).Nodup ∧
    (∀ w ∈ v :: vs, (db.interned kind).byValue w = none) ∧ vs.length ≤ n ∧
      id = (next + vs.length) % 2 ^ 32

/-- The value that a label interns in the table. -/
def Label.interns (kind : QueryKindId) : Label V → Option V
  | .intern kind' v => if kind' = kind then some v else none
  | _ => none

section runs

variable [DecidableEq V] {S : Schema V} {c c' : Config V}

/-- In every run from here in which at most `n` values are interned, `intern` on the table, with its
ids of 32 bits, returns the id for no value but `v`. -/
def Database.KeepsBound (S : Schema V) (db : Database V) (n : ℕ∞) (kind : QueryKindId) (id : Nat)
    (v : V) : Prop :=
  ∀ c : Config V, c.world.database = db → ∀ ls c', Trans.run (step S) c ls = some c' →
    (ls.filterMap (Label.interns kind)).length ≤ n →
      ∀ v', (((db.interned kind).narrow.internAll (ls.filterMap (Label.interns kind))).intern
        v').2.toNat = id → v' = v

/-- A step interns the value of its label, if that is for the table. -/
theorem table_step {l : Label V} (h : step S c l = some c') (kind : QueryKindId) :
    c'.world.interned kind =
      (c.world.interned kind).internAll (Label.interns kind l).toList := by
  rw [interned_step h]
  cases l with
  | intern kind' v =>
    rcases eq_or_ne kind' kind with rfl | hne
    · simp only [Label.interns, if_pos]
      exact Function.update_self ..
    · simp only [Label.interns, if_neg hne]
      exact Function.update_of_ne hne.symm ..
  | _ => rfl

/-- **A run interns the values of its labels**, and does nothing else to a table. -/
theorem interned_run {ls : List (Label V)} (h : Trans.run (step S) c ls = some c')
    (kind : QueryKindId) :
    c'.world.interned kind =
      (c.world.interned kind).internAll (ls.filterMap (Label.interns kind)) := by
  induction ls generalizing c with
  | nil =>
    obtain rfl := Option.some.inj h
    rfl
  | cons l ls ih =>
    unfold Trans.run at h
    split at h
    · cases h
    · next m hl =>
      rw [ih h, table_step hl]
      cases hv : Label.interns kind l <;> simp [hv, InternedIngredient.internAll]

/-- **For as long as no counter comes to its end, the tables of a run are those with ids of 32
bits.** -/
theorem narrow_run {ls : List (Label V)} (h : Trans.run (step S) c ls = some c')
    (kind : QueryKindId) (hlt : (c'.world.interned kind).nextId + 1 < 2 ^ 32) :
    (c'.world.interned kind).narrow =
      (c.world.interned kind).narrow.internAll (ls.filterMap (Label.interns kind)) := by
  rw [interned_run h kind] at hlt ⊢
  exact InternedIngredient.narrow_internAll _ hlt

/-- Any values can be interned. -/
theorem run_intern (S : Schema V) (c : Config V) (kind : QueryKindId) (vs : List V) :
    ∃ ls c', Trans.run (step S) c ls = some c' ∧ ls.filterMap (Label.interns kind) = vs := by
  induction vs generalizing c with
  | nil => exact ⟨[], c, rfl, rfl⟩
  | cons v vs ih =>
    obtain ⟨ls, c', hrun, hvalues⟩ := ih { c with world := c.world.intern kind v }
    refine ⟨.intern kind v :: ls, c', hrun, ?_⟩
    simp [Label.interns, hvalues]

/-- **An id stays bound if and only if no other value is led to it.** -/
theorem keepsBound_iff {db : Database V} {n : ℕ∞} {kind : QueryKindId} {id : Nat} {v : V}
    (hid : id < 2 ^ 32)
    (hv : ∀ v', (db.interned kind).narrow.byValue v' = some (UInt32.ofNat id) → v' = v) :
    db.KeepsBound S n kind id v ↔
      ∀ v', (db.interned kind).narrow.Leads n (UInt32.ofNat id) v' → v' = v := by
  constructor
  · intro hkeeps v' hleads
    obtain ⟨vs, hn, hreturn⟩ := InternedIngredient.intern_returns_iff.mpr (.inr hleads)
    obtain ⟨ls, c', hrun, rfl⟩ :=
      run_intern S { (init : Config V) with world := World.init.withDatabase db } kind vs
    refine hkeeps _ ?_ ls c' hrun hn v' ((InternedIngredient.toNat_eq_iff hid _).mpr hreturn)
    simp [World.database, World.withDatabase]
  · intro hleads c _ ls c' _ hn v' hreturn
    have hreturn := (InternedIngredient.toNat_eq_iff hid _).mp hreturn
    rcases InternedIngredient.intern_returns_iff.mp ⟨_, hn, hreturn⟩ with hold | hnew
    · exact hv v' hold
    · exact hleads v' hnew

end runs

section bound

variable [DecidableEq V] {S : Schema V} {C : Codec V} {o o' : Order}
  {ingredients : List PersistableIngredient} {base db : Database V} {options : CacheSaveOptions}
  {bytes : Bytes} {runtime : RuntimeId}

/-- The tables after the load: inverse, with values they had, and what the next id is. -/
theorem tables_of_load (hC : C.RoundTrip)
    (hsave : base.saveCacheWithOptions o C ingredients options = .ok bytes)
    (hload : (Database.new runtime).loadCache C o' ingredients (.read bytes) = (.ok true, db))
    (kind : QueryKindId) :
    (db.interned kind).Inverse ∧
      (∀ id v, (db.interned kind).byId id = some v → (base.interned kind).byId id = some v) ∧
        ∀ id, id < (db.interned kind).nextId ↔ db.Reaches ingredients kind id := by
  by_cases hlist : ∃ i ∈ ingredients, i.sectionType = .interned ∧ i.kind = kind
  · obtain ⟨i, hi, htype, rfl⟩ := hlist
    obtain ⟨cache, -, s, -, -, hloaded, hsaved⟩ := table_of_load hC hsave hload hi htype
    have htable := loadedFrom hloaded
    refine ⟨htable.inverse, fun id v hv => ?_, fun id => (htable.next id).trans ?_⟩
    · obtain ⟨b, hb, hdecode⟩ := htable.records id v hv
      exact hsaved b hb id v hdecode
    · exact or_congr_left (and_iff_left ⟨i, hi, htype, rfl⟩).symm
  · have hempty : db.interned kind = .empty :=
      (Database.spares_loadCache hload).interned kind
        fun i hi htype hkind => hlist ⟨i, hi, htype, hkind⟩
    rw [hempty]
    refine ⟨fun _ _ => ?_, fun _ _ hv => ?_, fun id => iff_of_false (Nat.not_lt_zero id) ?_⟩
    · constructor <;> (intro h; cases h)
    · cases hv
    · rintro (⟨-, hlisted⟩ | ⟨id', v, -, hv⟩)
      · exact hlist hlisted
      · rw [hempty] at hv
        cases hv

omit [DecidableEq V] in
/-- The next id of the narrowed table is where the counter starts. -/
theorem Database.starts_iff {kind : QueryKindId} {next : Nat}
    (hnext : ∀ id, id < (db.interned kind).nextId ↔ db.Reaches ingredients kind id) :
    db.Starts ingredients kind next ↔ next = (db.interned kind).narrow.nextId.toNat := by
  have hnat : (db.interned kind).narrow.nextId.toNat =
      min (db.interned kind).nextId (2 ^ 32 - 1) :=
    UInt32.toNat_ofNat_of_lt' (Nat.lt_of_le_of_lt (Nat.min_le_right ..) (by decide))
  have hstarts : db.Starts ingredients kind (min (db.interned kind).nextId (2 ^ 32 - 1)) := by
    intro id
    rw [Nat.lt_min, hnext]
  rw [hnat]
  constructor
  · intro h
    exact eq_of_forall_lt_iff fun id => (h id).trans (hstarts id).symm
  · rintro rfl
    exact hstarts

omit [DecidableEq V] in
/-- A value is led to an id when it is reissued for it. -/
theorem Database.reissues_iff {n : ℕ∞} {kind : QueryKindId} {id : Nat} (hid : id < 2 ^ 32) {v : V}
    (hnext : ∀ id, id < (db.interned kind).nextId ↔ db.Reaches ingredients kind id) :
    db.Reissues ingredients n kind id v ↔
      (db.interned kind).narrow.Leads n (UInt32.ofNat id) v := by
  have hnew : ∀ w, (db.interned kind).narrow.byValue w = none ↔
      (db.interned kind).byValue w = none := fun w => Option.map_eq_none_iff
  have hcount : ∀ k, id = ((db.interned kind).narrow.nextId.toNat + k) % 2 ^ 32 ↔
      UInt32.ofNat id = (db.interned kind).narrow.nextId + UInt32.ofNat k := by
    intro k
    rw [eq_comm (a := UInt32.ofNat id), ← InternedIngredient.toNat_eq_iff hid, UInt32.toNat_add,
      UInt32.toNat_ofNat', Nat.add_mod_mod, eq_comm]
  unfold Database.Reissues InternedIngredient.Leads
  simp only [Database.starts_iff hnext, exists_eq_left, hnew, hcount]

/-- **When ids stay bound across a save within limits.**  A cache is saved with any options and
loaded into a fresh database.  No id that occurs in a loaded record is ever returned for a value
other than the one it denoted, in runs that intern up to `n` values, if and only if, for each of
them, no other value that is new to the table is filed when the counter stands there. -/
theorem ids_stay_bound_iff (S : Schema V) (hC : C.RoundTrip)
    (hids : ∀ kind id v, (base.interned kind).byId id = some v → id < 2 ^ 32)
    (hsave : base.saveCacheWithOptions o C ingredients options = .ok bytes)
    (hload : (Database.new runtime).loadCache C o' ingredients (.read bytes) = (.ok true, db))
    (ids : DynKey → List (QueryKindId × Nat)) (n : ℕ∞) :
    (∀ kind id v, db.Mentions ids kind id → (base.interned kind).byId id = some v →
        db.KeepsBound S n kind id v) ↔
      ∀ kind id v, db.Mentions ids kind id → (base.interned kind).byId id = some v →
        ∀ v', db.Reissues ingredients n kind id v' → v' = v := by
  refine forall₃_congr fun kind id v => ?_
  refine forall₂_congr fun _ hv => ?_
  have hid := hids kind id v hv
  obtain ⟨hinverse, hold, hnext⟩ := tables_of_load hC hsave hload kind
  have hsame : ∀ v', (db.interned kind).narrow.byValue v' = some (UInt32.ofNat id) → v' = v := by
    intro v' hv'
    obtain ⟨id', hid', heq⟩ := Option.map_eq_some_iff.mp hv'
    have hbase := hold id' v' ((hinverse id' v').mpr hid')
    have heq : id' = id := by
      rw [← UInt32.toNat_ofNat_of_lt' (hids kind id' v' hbase), heq, UInt32.toNat_ofNat_of_lt' hid]
    exact Option.some.inj (hbase.symm.trans (heq ▸ hv))
  rw [keepsBound_iff hid hsame]
  exact forall_congr' fun v' => imp_congr_left (Database.reissues_iff hid hnext).symm

omit [DecidableEq V] in
/-- **An id that is reached is not reissued** before the counter comes round. -/
theorem Database.not_reissues {n : Nat} {kind : QueryKindId} {id : Nat} {v : V}
    (hid : db.Reaches ingredients kind id)
    (hn : ∀ id', db.Reaches ingredients kind id' → id' + 1 + n < 2 ^ 32) :
    ¬ db.Reissues ingredients n kind id v := by
  rintro ⟨next, hstarts, vs, -, -, hle, heq⟩
  have hle : vs.length ≤ n := Nat.cast_le.mp hle
  have hlt : id < next := (hstarts id).mpr ⟨hid, by have := hn id hid; omega⟩
  obtain ⟨last, rfl⟩ : ∃ last, next = last + 1 := ⟨next - 1, by omega⟩
  have hlast := hn last ((hstarts last).mp (Nat.lt_succ_self _)).1
  rw [Nat.mod_eq_of_lt (by omega)] at heq
  omega

end bound

/-! ## 6. A name that is given away -/

namespace Given

open RoundTrip Keyed

/-- The names 7 and 8 have got the ids 0 and 1, and a number each. -/
def program : List (Op Nat) :=
  [.intern 2 7, .intern 2 8, .mutate 0 (names.slot 0) (some 50), .mutate 0 (names.slot 1) (some 60)]

/-- The key of a number is the id of its name. -/
def ids (k : DynKey) : List (QueryKindId × Nat) :=
  if k.kind = names.dataKind then [(names.keysKind, k.key.length)] else []

/-- Records of more than one byte are skipped. -/
def options : CacheSaveOptions := ⟨none, none, some 1⟩

def order : Order := ⟨fun kind => if kind = 0 then [[], [0]] else [], fun _ => [], fun _ => [0, 1]⟩

/-- A codec in which one of the names, the last of the list, takes two bytes. -/
def codec (interned : List (Nat × Nat)) : Codec Nat :=
  .ofTable ⟨[⟨formatVersion, 2, [⟨0, "items", .input, [[], [0]]⟩, ⟨1, "totals", .derived, []⟩,
    ⟨2, "names", .interned, [[]]⟩]⟩], [([], ⟨some 50, 1⟩), ([0], ⟨some 60, 2⟩)], [], interned⟩

/-- The record of 8 takes two bytes, or that of 7. -/
def long8 : Codec Nat := codec [(0, 7), (5, 5), (1, 8)]
def long7 : Codec Nat := codec [(1, 8), (5, 5), (0, 7)]

/-- **The record of 8 is skipped, and its number is not**: the next name gets its id, and with it
the number. -/
theorem dropped_name_is_given_away : ¬ ∀ (C : Codec Nat) (ops : List (Op Nat)) (c : Config Nat)
    (o o' : Order) (options : CacheSaveOptions) (bytes : Bytes) (db : Database Nat),
    C.RoundTrip → runOps schema 0 init ops = some c →
      c.world.database.saveCacheWithOptions o C ingredients options = .ok bytes →
        (Database.new 5).loadCache C o' ingredients (.read bytes) = (.ok true, db) →
          ∀ kind id v, db.Mentions ids kind id →
            (c.world.database.interned kind).byId id = some v →
              db.KeepsBound schema ⊤ kind id v := by
  intro h
  obtain ⟨c, hc⟩ : ∃ c, runOps schema 0 init program = some c := ⟨_, rfl⟩
  have hsave : c.world.database.saveCacheWithOptions order long8 ingredients options = .ok [] := by
    cases hc
    rfl
  obtain ⟨db, hload⟩ : ∃ db, (Database.new 5).loadCache long8 order ingredients (.read []) =
      (.ok true, db) := ⟨_, rfl⟩
  have hkeeps := h long8 program c order order options [] db (Codec.roundTrip_ofTable _) hc hsave
    hload 2 1 8 (.inr (.inl ⟨names.slot 1, ⟨some 60, 2⟩, by cases hload; rfl, by decide⟩))
    (by cases hc; rfl)
  have hgiven := hkeeps { (init : Config Nat) with world := World.init.withDatabase db }
    (by simp [World.database, World.withDatabase]) [] _ rfl le_top 9 (by cases hload; rfl)
  cases hgiven

/-- There are no other ids. -/
theorem names_only {c : Config Nat} (hc : runOps schema 0 init program = some c)
    {kind : QueryKindId} {id v : Nat} (hv : (c.world.database.interned kind).byId id = some v) :
    kind = 2 ∧ id ≤ 1 := by
  rcases eq_or_ne kind 2 with rfl | hkind
  · refine ⟨rfl, ?_⟩
    by_contra hlt
    have h0 : id ≠ 0 := by omega
    have h1 : id ≠ 1 := by omega
    have hnone : (c.world.database.interned 2).byId id = none := by
      cases hc
      exact (Function.update_of_ne h1 ..).trans (Function.update_of_ne h0 ..)
    rw [hnone] at hv
    cases hv
  · have hempty : c.world.database.interned kind = .empty := by
      cases hc
      exact (Function.update_of_ne hkind ..).trans (Function.update_of_ne hkind ..)
    rw [hempty] at hv
    cases hv

/-- The record of 7 is skipped, and that of 8 is left: the id of 7 stays bound while a thousand
names are interned. -/
theorem dropped_name_stays_bound : ∃ (c : Config Nat) (db : Database Nat),
    runOps schema 0 init program = some c ∧
      c.world.database.saveCacheWithOptions order long7 ingredients options = .ok [] ∧
        (Database.new 5).loadCache long7 order ingredients (.read []) = (.ok true, db) ∧
          (db.interned 2).byId 0 = none ∧ db.KeepsBound schema 1000 2 0 7 := by
  obtain ⟨c, hc⟩ : ∃ c, runOps schema 0 init program = some c := ⟨_, rfl⟩
  have hsave : c.world.database.saveCacheWithOptions order long7 ingredients options = .ok [] := by
    cases hc
    rfl
  obtain ⟨db, hload⟩ : ∃ db, (Database.new 5).loadCache long7 order ingredients (.read []) =
      (.ok true, db) := ⟨_, rfl⟩
  have hC : long7.RoundTrip := Codec.roundTrip_ofTable _
  have hleft : (db.interned 2).byId 1 = some 8 := by
    cases hload
    rfl
  refine ⟨c, db, hc, hsave, hload, by cases hload; rfl, ?_⟩
  refine (ids_stay_bound_iff schema hC (fun kind id v hv => ?_) hsave hload ids 1000).mpr ?_ 2 0 7
    (.inr (.inl ⟨names.slot 0, ⟨some 50, 1⟩, by cases hload; rfl, by decide⟩)) (by cases hc; rfl)
  · have := (names_only hc hv).2
    omega
  · intro kind id v _ hv v' hreissues
    obtain ⟨rfl, hle⟩ := names_only hc hv
    refine absurd hreissues
      (Database.not_reissues (n := 1000) (.inr ⟨1, 8, hle, hleft⟩) fun id' hid' => ?_)
    rcases hid' with ⟨rfl, -⟩ | ⟨id'', v'', hle', hv''⟩
    · decide
    · have := (names_only hc ((tables_of_load hC hsave hload 2).2.1 id'' v'' hv'')).2
      omega

end Given

end Picante

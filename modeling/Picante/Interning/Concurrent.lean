/-
# Interning from many threads

`intern` and `get` on one ingredient, from any number of threads (and views, which share it): the
lock of the map entry, the counter, and the two insertions are separate steps.  The lock is that of
the shard the key falls into; where keys fall is a parameter.

* `Interned` -- what holds between two steps: ids were given out to distinct keys in their order,
  and a key whose id is not filed yet is held by the thread that is about to file it.
* `interned_run` -- it does so in every run that interns fewer than 2^32 values.
-/
import Picante.Interning.Table
import Picante.Trans.Run
import Mathlib.Data.List.Dedup
import Mathlib.Data.List.Perm.Subperm

namespace Picante

namespace Interning

variable {K σ : Type}

/-! ## 1. Threads -/

abbrev ThreadId := Nat

/-- Where a thread is. -/
inductive Pc (K : Type) where
  | idle
  /-- about to lock the entry of the key -/
  | entry (value : K) (key : Key)
  /-- with the lock, about to look at the entry -/
  | locked (value : K) (key : Key)
  /-- with the lock, about to insert into `by_id` -/
  | insertId (value : K) (key : Key) (id : UInt32)
  /-- with the lock, about to insert into `by_value` -/
  | insertValue (value : K) (key : Key) (id : UInt32)
  /-- with the lock, about to release it and return -/
  | release (value : K) (key : Key) (id : UInt32)
  /-- about to look up the id -/
  | get (id : UInt32)

/-- The key whose entry the thread has locked. -/
def Pc.lock : Pc K → Option Key
  | .locked _ key | .insertId _ key _ | .insertValue _ key _ | .release _ key _ => some key
  | _ => none

/-- The key and the id that the thread is about to file. -/
def Pc.filing : Pc K → Option (Key × UInt32)
  | .insertId _ key id | .insertValue _ key id => some (key, id)
  | _ => none

/-- What a call returned. -/
inductive Event (K : Type) where
  | interned (value : K) (id : UInt32)
  | notInterned (value : K) (e : PicanteError)
  | got (id : UInt32) (result : PicanteResult K)

/-- A call of `intern` or of `get`. -/
inductive ThreadCall (K : Type) where
  | intern (value : K)
  | get (id : UInt32)

inductive Label (K : Type) where
  | call (t : ThreadId) (c : ThreadCall K)
  | step (t : ThreadId)

/-- The ingredient, who has locked the entries of a shard, the threads, and what was returned. -/
structure State (K σ : Type) where
  table : Ingredient K
  locks : σ → Option ThreadId
  threads : ThreadId → Pc K
  log : List (Event K)

namespace State

def init : State K σ := ⟨.empty, fun _ => none, fun _ => .idle, []⟩

def goto (s : State K σ) (t : ThreadId) (pc : Pc K) : State K σ :=
  { s with threads := Function.update s.threads t pc }

def returns (s : State K σ) (t : ThreadId) (e : Event K) : State K σ :=
  { s.goto t .idle with log := s.log ++ [e] }

variable [DecidableEq σ] (F : Facet K) (kind : QueryKindId) (shard : Key → σ)

/-- The next step of a thread. -/
def stepThread (s : State K σ) (t : ThreadId) : Option (State K σ) :=
  match s.threads t with
  | .idle => none
  | .entry value key =>
    match s.locks (shard key) with
    | some _ => none
    | none =>
      some { s.goto t (.locked value key) with
        locks := Function.update s.locks (shard key) (some t) }
  | .locked value key =>
    match s.table.byValue key with
    | some id => some (s.goto t (.release value key id))
    | none =>
      some { s.goto t (.insertId value key s.table.nextId) with
        table := { s.table with nextId := s.table.nextId + 1 } }
  | .insertId value key id =>
    some { s.goto t (.insertValue value key id) with
      table := { s.table with byId := Function.update s.table.byId id (some value) } }
  | .insertValue value key id =>
    some { s.goto t (.release value key id) with
      table := { s.table with byValue := Function.update s.table.byValue key (some id) } }
  | .release value key id =>
    some { s.returns t (.interned value id) with
      locks := Function.update s.locks (shard key) none }
  | .get id =>
    match s.table.byId id with
    | some v => some (s.returns t (.got id (.ok v)))
    | none => some (s.returns t (.got id (.error (.missingInternedValue kind id.toNat))))

/-- One step: an idle thread makes a call, or a thread goes on. -/
def step (s : State K σ) : Label K → Option (State K σ)
  | .call t c =>
    match s.threads t, c with
    | .idle, .intern value =>
      match F.encode value with
      | .error e => some (s.returns t (.notInterned value e))
      | .ok key => some (s.goto t (.entry value key))
    | .idle, .get id => some (s.goto t (.get id))
    | _, _ => none
  | .step t => s.stepThread kind shard t

end State

/-- The key of the value that a call interns. -/
def Label.key (F : Facet K) : Label K → Option Key
  | .call _ (.intern value) => (F.encode value).toOption
  | _ => none

/-- The keys of the values that the calls intern. -/
def keysOf (F : Facet K) (ls : List (Label K)) : List Key := ls.filterMap (Label.key F)

/-! ## 2. What holds between two steps -/

/-- The events are such that a `get` after an id was returned has succeeded. -/
def Answered (F : Facet K) (e e' : Event K) : Prop :=
  ∀ value id r, e = .interned value id → e' = .got id r →
    ∃ v, r = .ok v ∧ F.encode v = F.encode value

/-- What a thread knows of its key and its id. -/
def Pc.Knows (F : Facet K) (keys ids : List Key) (t : Ingredient K) : Pc K → Prop
  | .idle | .get _ => True
  | .entry value key | .locked value key => F.encode value = .ok key ∧ key ∈ keys
  | .insertId value key id =>
    F.encode value = .ok key ∧ ids[id.toNat]? = some key ∧ t.byId id = none ∧
      t.byValue key = none
  | .insertValue value key id =>
    F.encode value = .ok key ∧ ids[id.toNat]? = some key ∧ t.byId id = some value ∧
      t.byValue key = none
  | .release value key id => F.encode value = .ok key ∧ t.byValue key = some id

/-- **What holds between two steps**, where `ids` are the keys the ids were given to, in the order
of the ids, and `keys` those of the values that are interned. -/
structure Interned (F : Facet K) (shard : Key → σ) (keys ids : List Key) (s : State K σ) :
    Prop where
  next : s.table.nextId.toNat = ids.length
  nodup : ids.Nodup
  called : ids ⊆ keys
  byId : ∀ id v, s.table.byId id = some v →
    ∃ key, F.encode v = .ok key ∧ ids[id.toNat]? = some key
  byValue : ∀ key id, s.table.byValue key = some id → ids[id.toNat]? = some key ∧
    ∃ v, s.table.byId id = some v ∧ F.encode v = .ok key
  filed : ∀ key ∈ ids, s.table.byValue key ≠ none ∨
    ∃ t id, (s.threads t).filing = some (key, id)
  knows : ∀ t, (s.threads t).Knows F keys ids s.table
  locked : ∀ t key, (s.threads t).lock = some key → s.locks (shard key) = some t
  interned : ∀ value id, .interned value id ∈ s.log →
    ∃ key, F.encode value = .ok key ∧ s.table.byValue key = some id
  got : ∀ id v, .got id (.ok v) ∈ s.log → s.table.byId id = some v
  answered : s.log.Pairwise (Answered F)

section steps

variable [DecidableEq σ] {F : Facet K} {kind : QueryKindId} {shard : Key → σ}
  {keys ids : List Key} {s s' : State K σ} {t : ThreadId}

omit [DecidableEq σ] in
theorem interned_init : Interned F shard keys [] (State.init : State K σ) where
  next := rfl
  nodup := .nil
  called := List.nil_subset _
  byId _ _ h := nomatch h
  byValue _ _ h := nomatch h
  filed _ h := nomatch h
  knows _ := trivial
  locked _ _ h := nomatch h
  interned _ _ h := nomatch h
  got _ _ h := nomatch h
  answered := .nil

omit [DecidableEq σ] in
/-- Two threads never have locks for one key. -/
theorem Interned.other_key (h : Interned F shard keys ids s) {t' : ThreadId} {key key' : Key}
    (hne : t' ≠ t) (hkey : (s.threads t).lock = some key)
    (hkey' : (s.threads t').lock = some key') : key' ≠ key := by
  rintro rfl
  have hlock := h.locked t key' hkey
  rw [h.locked t' key' hkey'] at hlock
  exact hne (Option.some.inj hlock)

omit [DecidableEq σ] in
/-- An id was given to one key only, and a key got one id only. -/
theorem Interned.id_eq_iff (h : Interned F shard keys ids s) {id id' : UInt32} {key key' : Key}
    (hid : ids[id.toNat]? = some key) (hid' : ids[id'.toNat]? = some key') :
    id = id' ↔ key = key' := by
  obtain ⟨hlt, rfl⟩ := List.getElem?_eq_some_iff.mp hid
  obtain ⟨hlt', rfl⟩ := List.getElem?_eq_some_iff.mp hid'
  rw [h.nodup.getElem_inj_iff]
  exact UInt32.toNat_inj.symm

omit [DecidableEq σ] in
/-- A thread goes on without changing anything else. -/
theorem Interned.goto (h : Interned F shard keys ids s) {pc : Pc K}
    (hknows : pc.Knows F keys ids s.table)
    (hlock : ∀ key, pc.lock = some key → (s.threads t).lock = some key)
    (hfiling : (s.threads t).filing = none) : Interned F shard keys ids (s.goto t pc) where
  next := h.next
  nodup := h.nodup
  called := h.called
  byId := h.byId
  byValue := h.byValue
  filed key hkey := by
    refine (h.filed key hkey).imp id fun ⟨t', id, hid⟩ => ⟨t', id, ?_⟩
    have hne : t' ≠ t := by
      rintro rfl
      rw [hfiling] at hid
      cases hid
    simpa [State.goto, hne] using hid
  knows t' := by
    rcases eq_or_ne t' t with rfl | hne
    · simpa [State.goto] using hknows
    · simpa [State.goto, hne] using h.knows t'
  locked t' key hkey := by
    rcases eq_or_ne t' t with rfl | hne
    · exact h.locked t' key (hlock key (by simpa [State.goto] using hkey))
    · exact h.locked t' key (by simpa [State.goto, hne] using hkey)
  interned := h.interned
  got := h.got
  answered := h.answered

omit [DecidableEq σ] in
/-- A call returns. -/
theorem Interned.log (h : Interned F shard keys ids s) {e : Event K}
    (hinterned : ∀ value id, e = .interned value id →
      ∃ key, F.encode value = .ok key ∧ s.table.byValue key = some id)
    (hgot : ∀ id v, e = .got id (.ok v) → s.table.byId id = some v)
    (hfailed : ∀ id err, e = .got id (.error err) → s.table.byId id = none) :
    Interned F shard keys ids { s with log := s.log ++ [e] } where
  next := h.next
  nodup := h.nodup
  called := h.called
  byId := h.byId
  byValue := h.byValue
  filed := h.filed
  knows := h.knows
  locked := h.locked
  interned value id hmem := by
    rcases List.mem_append.mp hmem with hmem | hmem
    · exact h.interned value id hmem
    · exact hinterned value id (List.mem_singleton.mp hmem).symm
  got id v hmem := by
    rcases List.mem_append.mp hmem with hmem | hmem
    · exact h.got id v hmem
    · exact hgot id v (List.mem_singleton.mp hmem).symm
  answered := by
    refine List.pairwise_append.mpr ⟨h.answered, List.pairwise_singleton .., ?_⟩
    intro e₁ he₁ e₂ he₂ value id r hvalue hr
    obtain rfl := List.mem_singleton.mp he₂
    subst hvalue hr
    -- the id was returned for a value, so it is filed
    obtain ⟨key, hkey, hid⟩ := h.interned value id he₁
    obtain ⟨-, v, hv, hv'⟩ := h.byValue key id hid
    cases r with
    | ok w =>
      have hw := hgot id w rfl
      rw [hv] at hw
      cases hw
      exact ⟨v, rfl, hv'.trans hkey.symm⟩
    | error err =>
      have hnone := hfailed id err rfl
      rw [hv] at hnone
      cases hnone

/-- The entry of a key is locked. -/
theorem Interned.lockEntry (h : Interned F shard keys ids s) {value : K} {key : Key}
    (hpc : s.threads t = .entry value key) (hfree : s.locks (shard key) = none) :
    Interned F shard keys ids { s.goto t (.locked value key) with
      locks := Function.update s.locks (shard key) (some t) } := by
  have hknows := h.knows t
  rw [hpc] at hknows
  refine { h with filed := ?_, knows := ?_, locked := ?_ }
  · intro key' hkey'
    refine (h.filed key' hkey').imp id fun ⟨t', id, hid⟩ => ⟨t', id, ?_⟩
    have hne : t' ≠ t := by
      rintro rfl
      rw [hpc] at hid
      cases hid
    simpa [State.goto, hne] using hid
  · intro t'
    rcases eq_or_ne t' t with rfl | hne
    · simp only [State.goto, Function.update_self]
      exact hknows
    · simpa [State.goto, hne] using h.knows t'
  · intro t' key' hkey'
    rcases eq_or_ne t' t with rfl | hne
    · simp only [State.goto, Function.update_self, Pc.lock, Option.some.injEq] at hkey'
      rw [hkey']
      exact Function.update_self ..
    · have hlocked := h.locked t' key' (by simpa [State.goto, hne] using hkey')
      refine (Function.update_of_ne ?_ ..).trans hlocked
      intro heq
      rw [heq, hfree] at hlocked
      cases hlocked

omit [DecidableEq σ] in
/-- **A new id is given to a key**, as long as there are ids. -/
theorem Interned.allocate (h : Interned F shard keys ids s) (hfew : keys.dedup.length < 2 ^ 32)
    {value : K} {key : Key} (hpc : s.threads t = .locked value key)
    (hnew : s.table.byValue key = none) :
    Interned F shard keys (ids ++ [key]) { s.goto t (.insertId value key s.table.nextId) with
      table := { s.table with nextId := s.table.nextId + 1 } } := by
  have hknows := h.knows t
  rw [hpc] at hknows
  obtain ⟨hkey, hcalled⟩ := hknows
  have hlock : (s.threads t).lock = some key := by rw [hpc]; rfl
  -- the key has no id: no other thread can be filing it
  have hfresh : key ∉ ids := by
    intro hmem
    obtain hfiled | ⟨t', id, hid⟩ := h.filed key hmem
    · exact hfiled hnew
    · have hne : t' ≠ t := by
        rintro rfl
        rw [hpc] at hid
        cases hid
      have hlock' : (s.threads t').lock = some key := by
        cases hpc' : s.threads t' <;> rw [hpc'] at hid <;> cases hid <;> rfl
      exact h.other_key hne hlock hlock' rfl
  have hnodup : (ids ++ [key]).Nodup :=
    List.nodup_append.mpr ⟨h.nodup, List.nodup_singleton _, fun a ha b hb => by
      obtain rfl := List.mem_singleton.mp hb
      rintro rfl
      exact hfresh ha⟩
  have hcalled' : ids ++ [key] ⊆ keys :=
    List.append_subset.mpr ⟨h.called, fun k hk => List.mem_singleton.mp hk ▸ hcalled⟩
  have hlen : ids.length + 1 ≤ keys.dedup.length := by
    have hsub : ids ++ [key] ⊆ keys.dedup := fun k hk => List.mem_dedup.mpr (hcalled' hk)
    have hle := (hnodup.subperm hsub).length_le
    rwa [List.length_append] at hle
  have hroom : s.table.nextId.toNat < 2 ^ 32 - 1 := by
    rw [h.next]
    omega
  have hold : ∀ {i : Nat} {k : Key}, ids[i]? = some k → (ids ++ [key])[i]? = some k := by
    intro i k hi
    obtain ⟨hlt, -⟩ := List.getElem?_eq_some_iff.mp hi
    rwa [List.getElem?_append_left hlt]
  have hnext : (ids ++ [key])[s.table.nextId.toNat]? = some key := by
    rw [h.next]
    exact List.getElem?_concat_length
  have hunused : s.table.byId s.table.nextId = none := by
    cases hv : s.table.byId s.table.nextId with
    | none => rfl
    | some v =>
      obtain ⟨_, -, hid⟩ := h.byId _ v hv
      obtain ⟨hlt, -⟩ := List.getElem?_eq_some_iff.mp hid
      rw [h.next] at hlt
      exact absurd hlt (Nat.lt_irrefl _)
  refine ⟨?_, hnodup, hcalled', fun id v hv => ?_, fun k id hid => ?_, fun k hk => ?_, fun t' => ?_,
    fun t' k hk => ?_, h.interned, h.got, h.answered⟩
  · simp only [toNat_succ hroom, h.next, List.length_append, List.length_singleton]
  · obtain ⟨k, hk, hid⟩ := h.byId id v hv
    exact ⟨k, hk, hold hid⟩
  · obtain ⟨hids, hv⟩ := h.byValue k id hid
    exact ⟨hold hids, hv⟩
  · rcases List.mem_append.mp hk with hk | hk
    · refine (h.filed k hk).imp id fun ⟨t', id, hid⟩ => ⟨t', id, ?_⟩
      have hne : t' ≠ t := by
        rintro rfl
        rw [hpc] at hid
        cases hid
      simpa [State.goto, hne] using hid
    · obtain rfl := List.mem_singleton.mp hk
      exact .inr ⟨t, s.table.nextId, by simp [State.goto, Pc.filing]⟩
  · rcases eq_or_ne t' t with rfl | hne
    · simp only [State.goto, Function.update_self]
      exact ⟨hkey, hnext, hunused, hnew⟩
    · have hother := h.knows t'
      simp only [State.goto, Function.update_of_ne hne]
      cases hpc' : s.threads t' <;> rw [hpc'] at hother
      · trivial
      · exact hother
      · exact hother
      · exact ⟨hother.1, hold hother.2.1, hother.2.2⟩
      · exact ⟨hother.1, hold hother.2.1, hother.2.2⟩
      · exact hother
      · trivial
  · rcases eq_or_ne t' t with rfl | hne
    · simp only [State.goto, Function.update_self] at hk
      exact h.locked t' k (hlock.trans hk)
    · exact h.locked t' k (by simpa [State.goto, hne] using hk)

omit [DecidableEq σ] in
/-- **The value is inserted under the id.** -/
theorem Interned.insertId (h : Interned F shard keys ids s) {value : K} {key : Key} {id : UInt32}
    (hpc : s.threads t = .insertId value key id) :
    Interned F shard keys ids { s.goto t (.insertValue value key id) with
      table := { s.table with byId := Function.update s.table.byId id (some value) } } := by
  have hknows := h.knows t
  rw [hpc] at hknows
  obtain ⟨hkey, hid, hunused, hnew⟩ := hknows
  have hlock : (s.threads t).lock = some key := by rw [hpc]; rfl
  have hkept : ∀ {id' : UInt32} {v : K}, s.table.byId id' = some v →
      Function.update s.table.byId id (some value) id' = some v := by
    intro id' v hv
    refine (Function.update_of_ne ?_ ..).trans hv
    rintro rfl
    rw [hunused] at hv
    cases hv
  refine { h with
    byId := fun id' v hv => ?_, byValue := fun k id' hid' => ?_, filed := fun k hk => ?_,
    knows := fun t' => ?_, locked := fun t' k hk => ?_, got := fun id' v hmem => ?_ }
  · simp only [Function.update_apply] at hv
    split at hv
    · next heq =>
      cases hv
      exact ⟨key, hkey, heq ▸ hid⟩
    · exact h.byId id' v hv
  · obtain ⟨hids, v, hv, hv'⟩ := h.byValue k id' hid'
    exact ⟨hids, v, hkept hv, hv'⟩
  · refine (h.filed k hk).imp (fun hfiled => hfiled) fun ⟨t', id', hid'⟩ => ⟨t', id', ?_⟩
    rcases eq_or_ne t' t with rfl | hne
    · rw [hpc] at hid'
      simpa [State.goto, Pc.filing] using hid'
    · simpa [State.goto, hne] using hid'
  · rcases eq_or_ne t' t with rfl | hne
    · simp only [State.goto, Function.update_self]
      exact ⟨hkey, hid, Function.update_self .., hnew⟩
    · have hother := h.knows t'
      have hdiff : ∀ {k : Key}, (s.threads t').lock = some k → k ≠ key :=
        fun hk => h.other_key hne hlock hk
      simp only [State.goto, Function.update_of_ne hne]
      cases hpc' : s.threads t' <;> rw [hpc'] at hother hdiff
      · trivial
      · exact hother
      · exact hother
      · next value' key' id' =>
        refine ⟨hother.1, hother.2.1, ?_, hother.2.2.2⟩
        refine (Function.update_of_ne ?_ ..).trans hother.2.2.1
        exact fun heq => hdiff rfl ((h.id_eq_iff hother.2.1 hid).mp heq)
      · exact ⟨hother.1, hother.2.1, hkept hother.2.2.1, hother.2.2.2⟩
      · exact hother
      · trivial
  · rcases eq_or_ne t' t with rfl | hne
    · simp only [State.goto, Function.update_self] at hk
      exact h.locked t' k (hlock.trans hk)
    · exact h.locked t' k (by simpa [State.goto, hne] using hk)
  · exact hkept (h.got id' v hmem)

omit [DecidableEq σ] in
/-- **The id is inserted under the key.** -/
theorem Interned.insertValue (h : Interned F shard keys ids s) {value : K} {key : Key}
    {id : UInt32} (hpc : s.threads t = .insertValue value key id) :
    Interned F shard keys ids { s.goto t (.release value key id) with
      table := { s.table with byValue := Function.update s.table.byValue key (some id) } } := by
  have hknows := h.knows t
  rw [hpc] at hknows
  obtain ⟨hkey, hid, hv, hnew⟩ := hknows
  have hlock : (s.threads t).lock = some key := by rw [hpc]; rfl
  have hkept : ∀ {k : Key} {id' : UInt32}, s.table.byValue k = some id' →
      Function.update s.table.byValue key (some id) k = some id' := by
    intro k id' hid'
    refine (Function.update_of_ne ?_ ..).trans hid'
    rintro rfl
    rw [hnew] at hid'
    cases hid'
  refine { h with
    byValue := fun k id' hid' => ?_, filed := fun k hk => ?_, knows := fun t' => ?_,
    locked := fun t' k hk => ?_, interned := fun value' id' hmem => ?_ }
  · simp only [Function.update_apply] at hid'
    split at hid'
    · next heq =>
      cases hid'
      exact ⟨heq ▸ hid, value, hv, heq ▸ hkey⟩
    · exact h.byValue k id' hid'
  · rcases eq_or_ne k key with rfl | hk'
    · exact .inl (by simp)
    · refine (h.filed k hk).imp (fun hfiled => ?_) fun ⟨t', id', hid'⟩ => ⟨t', id', ?_⟩
      · simpa [State.goto, hk'] using hfiled
      · have hne : t' ≠ t := by
          rintro rfl
          rw [hpc] at hid'
          cases hid'
          exact hk' rfl
        simpa [State.goto, hne] using hid'
  · rcases eq_or_ne t' t with rfl | hne
    · simp only [State.goto, Function.update_self]
      exact ⟨hkey, Function.update_self ..⟩
    · have hother := h.knows t'
      have hdiff : ∀ {k : Key}, (s.threads t').lock = some k → k ≠ key :=
        fun hk => h.other_key hne hlock hk
      simp only [State.goto, Function.update_of_ne hne]
      cases hpc' : s.threads t' <;> rw [hpc'] at hother hdiff
      · trivial
      · exact hother
      · exact hother
      · refine ⟨hother.1, hother.2.1, hother.2.2.1, ?_⟩
        exact (Function.update_of_ne (hdiff rfl) ..).trans hother.2.2.2
      · refine ⟨hother.1, hother.2.1, hother.2.2.1, ?_⟩
        exact (Function.update_of_ne (hdiff rfl) ..).trans hother.2.2.2
      · exact ⟨hother.1, hkept hother.2⟩
      · trivial
  · rcases eq_or_ne t' t with rfl | hne
    · simp only [State.goto, Function.update_self] at hk
      exact h.locked t' k (hlock.trans hk)
    · exact h.locked t' k (by simpa [State.goto, hne] using hk)
  · obtain ⟨k, hk, hfiled⟩ := h.interned value' id' hmem
    exact ⟨k, hk, hkept hfiled⟩

/-- The lock is released. -/
theorem Interned.unlock (h : Interned F shard keys ids s) {value : K} {key : Key} {id : UInt32}
    (hpc : s.threads t = .release value key id) :
    Interned F shard keys ids { s.goto t .idle with
      locks := Function.update s.locks (shard key) none } := by
  have hlock : (s.threads t).lock = some key := by rw [hpc]; rfl
  have hgoto : Interned F shard keys ids (s.goto t .idle) :=
    h.goto trivial nofun (by rw [hpc]; rfl)
  refine { hgoto with locked := fun t' k hk => ?_ }
  have hne : t' ≠ t := by
    rintro rfl
    simp [State.goto, Pc.lock] at hk
  have hk' : (s.threads t').lock = some k := by simpa [State.goto, hne] using hk
  have hlocked := h.locked t' k hk'
  refine (Function.update_of_ne ?_ ..).trans hlocked
  intro heq
  rw [heq, h.locked t key hlock] at hlocked
  exact hne (Option.some.inj hlocked).symm

/-- **A step of a thread** keeps all in order. -/
theorem Interned.stepThread (h : Interned F shard keys ids s)
    (hfew : keys.dedup.length < 2 ^ 32) (hs : s.stepThread kind shard t = some s') :
    ∃ ids', Interned F shard keys ids' s' := by
  have hknows := h.knows t
  unfold State.stepThread at hs
  split at hs
  · cases hs
  · next value key hpc =>
    split at hs
    · cases hs
    · next hfree =>
      cases hs
      exact ⟨ids, h.lockEntry hpc hfree⟩
  · next value key hpc =>
    split at hs
    · next id hid =>
      cases hs
      rw [hpc] at hknows
      refine ⟨ids, h.goto ⟨hknows.1, hid⟩ (fun k hk => ?_) (by rw [hpc]; rfl)⟩
      rw [hpc]
      exact hk
    · next hnew =>
      cases hs
      exact ⟨_, h.allocate hfew hpc hnew⟩
  · next value key id hpc =>
    cases hs
    exact ⟨ids, h.insertId hpc⟩
  · next value key id hpc =>
    cases hs
    exact ⟨ids, h.insertValue hpc⟩
  · next value key id hpc =>
    cases hs
    rw [hpc] at hknows
    refine ⟨ids, (h.unlock hpc).log (fun v i he => ?_) nofun nofun⟩
    cases he
    exact ⟨key, hknows⟩
  · next id hpc =>
    have hidle : Interned F shard keys ids (s.goto t .idle) :=
      h.goto trivial nofun (by rw [hpc]; rfl)
    split at hs
    · next v hv =>
      cases hs
      refine ⟨ids, hidle.log nofun (fun i v' he => ?_) nofun⟩
      cases he
      exact hv
    · next hnone =>
      cases hs
      refine ⟨ids, hidle.log nofun nofun fun i err he => ?_⟩
      cases he
      exact hnone

/-- **A step** keeps all in order; the keys are those of the calls. -/
theorem Interned.step (h : Interned F shard keys ids s) (hfew : keys.dedup.length < 2 ^ 32)
    {l : Label K} (hcalled : ∀ key, l.key F = some key → key ∈ keys)
    (hs : s.step F kind shard l = some s') : ∃ ids', Interned F shard keys ids' s' := by
  cases l with
  | call t c =>
    simp only [State.step] at hs
    split at hs
    · next value hpc =>
      have hfiling : (s.threads t).filing = none := by rw [hpc]; rfl
      split at hs
      · cases hs
        have hidle : Interned F shard keys ids (s.goto t .idle) := h.goto trivial nofun hfiling
        exact ⟨ids, hidle.log nofun nofun nofun⟩
      · next key hkey =>
        cases hs
        refine ⟨ids, h.goto ⟨hkey, hcalled key ?_⟩ nofun hfiling⟩
        simp only [Label.key, hkey]
        rfl
    · next id hpc =>
      cases hs
      have hget : Interned F shard keys ids (s.goto t (.get id)) :=
        h.goto trivial nofun (by rw [hpc]; rfl)
      exact ⟨ids, hget⟩
    · cases hs
  | step t => exact h.stepThread hfew hs

end steps

/-! ## 3. Runs -/

section runs

variable [DecidableEq σ] {F : Facet K} {kind : QueryKindId} {shard : Key → σ}
  {ls : List (Label K)} {s : State K σ}

/-- In every state of a run that interns fewer than 2^32 values, all is in order. -/
theorem interned_run (hrun : Trans.run (State.step F kind shard) .init ls = some s)
    (hfew : (keysOf F ls).dedup.length < 2 ^ 32) :
    ∃ ids, Interned F shard (keysOf F ls) ids s := by
  refine (Trans.Steps.of_run hrun).invariant
    (I := fun m => ∃ ids, Interned F shard (keysOf F ls) ids m)
    ⟨[], interned_init⟩ fun m l m' ⟨ids, hm⟩ hl hmem => hm.step hfew (fun key hkey => ?_) hl
  exact List.mem_filterMap.mpr ⟨l, hmem, hkey⟩

end runs

end Interning

end Picante

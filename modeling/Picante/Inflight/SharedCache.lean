/-
# The shared cache

The cache of completed results of `inflight.rs` on its own: `shared_cache_put` takes an insert id,
queues the key with it and evicts under the lock of the queue, and inserts the record when it has
released the lock.

* `get_runCalls` -- a lookup finds what was put last, unless it has been evicted: this is how the
  rest of the development sees the cache.
* `shared_cache_bounded_iff` -- one call after another: the limit is looked at before the record is
  inserted, and the queue is popped only above the limit, so that the records and the queue stay
  bounded only where nothing is ever evicted.  There may be one record more (`size_runCalls_le`).
* `shared_cache_stays_evictable` -- puts from any number of threads: every record has its entry in
  the queue, as long as no eviction pops the entry of a put whose record is not inserted yet.
-/
import Picante.Inflight
import Picante.Eviction.Basic
import Picante.Tables.Latest
import Picante.Trans.Run
import Mathlib.Data.List.Induction
import Mathlib.Data.Finset.Card

namespace Picante

open Eviction Tables

variable {V : Type}

/-! ## 1. The cache -/

/-- Key of a completed result: it has no revision. -/
structure SharedCacheKey where
  runtimeId : RuntimeId
  query : DynKey
  deriving DecidableEq, Repr

/-- A record of the cache, with the id of its insertion. -/
structure InsertedRecord (V : Type) where
  record : SharedCacheRecord V
  insertId : Nat
  deriving DecidableEq, Repr

/-- The records, their order, and the next insert id. -/
structure SharedCache (V : Type) where
  records : Records SharedCacheKey (InsertedRecord V)
  order : List (SharedCacheKey × Nat)
  nextInsertId : Nat

namespace SharedCache

def init : SharedCache V := ⟨∅, [], 1⟩

/-- `shared_cache_get`. -/
def get (c : SharedCache V) (k : SharedCacheKey) : Option (SharedCacheRecord V) :=
  (c.records.lookup k).map InsertedRecord.record

/-- Counts an insertion. -/
def takeInsertId (c : SharedCache V) : SharedCache V :=
  { c with nextInsertId := c.nextInsertId + 1 }

/-- What a put does under the lock of the queue: its entry is pushed, and records are evicted while
there are more than `max`. -/
def enqueue (c : SharedCache V) (max : Nat) (k : SharedCacheKey) (id : Nat) : SharedCache V :=
  { c with
    records := (evict InsertedRecord.insertId max c.records (c.order ++ [(k, id)])).1
    order := (evict InsertedRecord.insertId max c.records (c.order ++ [(k, id)])).2 }

/-- The entries that this pops. -/
def evicted (c : SharedCache V) (max : Nat) (k : SharedCacheKey) (id : Nat) :
    List (SharedCacheKey × Nat) :=
  popped InsertedRecord.insertId max c.records (c.order ++ [(k, id)])

/-- Inserts a record. -/
def insert (c : SharedCache V) (k : SharedCacheKey) (r : SharedCacheRecord V) (id : Nat) :
    SharedCache V :=
  { c with records := c.records.insert k ⟨r, id⟩ }

/-- `shared_cache_put`, without interruption. -/
def put (max : Nat) (c : SharedCache V) (k : SharedCacheKey) (r : SharedCacheRecord V) :
    SharedCache V :=
  (c.takeInsertId.enqueue max k c.nextInsertId).insert k r c.nextInsertId

/-- Every record has its own entry in the queue. -/
def Evictable (c : SharedCache V) : Prop := Queued InsertedRecord.insertId c.records c.order

theorem evictable_init : (init : SharedCache V).Evictable := fun _ _ => nofun

/-- A record that is inserted behind its entry is evictable. -/
theorem Evictable.insert {c : SharedCache V} (h : c.Evictable) {k : SharedCacheKey} {id : Nat}
    (hmem : (k, id) ∈ c.order) (r : SharedCacheRecord V) : (c.insert k r id).Evictable := by
  intro k' a ha
  by_cases hk : k' = k
  · subst hk
    rw [SharedCache.insert, AList.lookup_insert] at ha
    cases ha
    exact hmem
  · rw [SharedCache.insert, AList.lookup_insert_ne hk] at ha
    exact h k' a ha

theorem Evictable.enqueue {c : SharedCache V} (h : c.Evictable) (max : Nat) (k : SharedCacheKey)
    (id : Nat) : (c.enqueue max k id).Evictable ∧ (k, id) ∈ (c.enqueue max k id).order ∧
      size (c.enqueue max k id).records ≤ max := by
  have happend := Queued.evict_append h max [(k, id)]
  unfold SharedCache.enqueue Evictable
  simp only [happend]
  refine ⟨fun k' a ha => List.mem_append_left _ (Queued.evict h k' a ha), ?_, Queued.size_evict h⟩
  exact List.mem_append_right _ (List.mem_singleton.mpr rfl)

theorem Evictable.put {c : SharedCache V} (h : c.Evictable) (max : Nat) (k : SharedCacheKey)
    (r : SharedCacheRecord V) :
    (c.put max k r).Evictable ∧ size (c.put max k r).records ≤ max + 1 := by
  have htaken : c.takeInsertId.Evictable := h
  obtain ⟨henqueued, hmem, hsize⟩ := htaken.enqueue max k c.nextInsertId
  refine ⟨henqueued.insert hmem r, ?_⟩
  exact Nat.le_trans (size_insert_le ..) (Nat.succ_le_succ hsize)

/-- A put where the limit is not exceeded evicts nothing. -/
theorem put_of_le {c : SharedCache V} {max : Nat} (h : size c.records ≤ max) (k : SharedCacheKey)
    (r : SharedCacheRecord V) :
    c.put max k r = ⟨c.records.insert k ⟨r, c.nextInsertId⟩, c.order ++ [(k, c.nextInsertId)],
      c.nextInsertId + 1⟩ := by
  unfold put enqueue takeInsertId
  simp only [evict_of_le h]
  rfl

end SharedCache

/-! ## 2. One call after another -/

/-- A call on the cache. -/
inductive SharedCacheCall (V : Type) where
  | put (key : SharedCacheKey) (record : SharedCacheRecord V)
  | get (key : SharedCacheKey)

namespace SharedCacheCall

/-- The key that is put. -/
def putKey : SharedCacheCall V → Option SharedCacheKey
  | .put key _ => some key
  | .get _ => none

/-- Carries out one call. -/
def run (max : Nat) (c : SharedCache V) : SharedCacheCall V → SharedCache V
  | .put key record => c.put max key record
  | .get _ => c

end SharedCacheCall

/-- The cache after a list of calls. -/
def runCalls (max : Nat) (calls : List (SharedCacheCall V)) : SharedCache V :=
  calls.foldl (SharedCacheCall.run max) .init

/-- The keys that were put, once for every put. -/
def putKeys (calls : List (SharedCacheCall V)) : List SharedCacheKey :=
  calls.filterMap SharedCacheCall.putKey

section calls

variable {max : Nat} {calls : List (SharedCacheCall V)}

theorem runCalls_append (max : Nat) (calls : List (SharedCacheCall V)) (call : SharedCacheCall V) :
    runCalls max (calls ++ [call]) = call.run max (runCalls max calls) := by
  unfold runCalls
  rw [List.foldl_append]
  rfl

theorem putKeys_put (calls : List (SharedCacheCall V)) (key : SharedCacheKey)
    (record : SharedCacheRecord V) :
    putKeys (calls ++ [.put key record]) = putKeys calls ++ [key] :=
  List.filterMap_append

theorem putKeys_get (calls : List (SharedCacheCall V)) (key : SharedCacheKey) :
    putKeys (calls ++ [.get key]) = putKeys calls := by
  unfold putKeys
  rw [List.filterMap_append]
  exact List.append_nil _

/-- **One call after another, there is at most one record more than the limit**, and all of them are
evictable. -/
theorem size_runCalls_le (max : Nat) (calls : List (SharedCacheCall V)) :
    (runCalls max calls).Evictable ∧ size (runCalls max calls).records ≤ max + 1 := by
  induction calls using List.reverseRecOn with
  | nil => exact ⟨SharedCache.evictable_init, Nat.zero_le _⟩
  | append_singleton calls call ih =>
    rw [runCalls_append]
    cases call with
    | get key => exact ih
    | put key record => exact ih.1.put max key record

/-- What was put. -/
def SharedCacheCall.putRecord : SharedCacheCall V → Option (SharedCacheKey × SharedCacheRecord V)
  | .put key record => some (key, record)
  | .get _ => none

/-- **A lookup finds what was put last under its key**, unless it has been evicted. -/
theorem get_runCalls {k : SharedCacheKey} {r : SharedCacheRecord V}
    (h : (runCalls max calls).get k = some r) :
    latest (calls.filterMap SharedCacheCall.putRecord) k = some r := by
  induction calls using List.reverseRecOn with
  | nil => cases h
  | append_singleton calls call ih =>
    rw [runCalls_append] at h
    rw [List.filterMap_append]
    cases call with
    | get key =>
      have hget : [SharedCacheCall.get (V := V) key].filterMap SharedCacheCall.putRecord = [] := rfl
      rw [hget, List.append_nil]
      exact ih h
    | put key record =>
      have hput : [SharedCacheCall.put key record].filterMap SharedCacheCall.putRecord =
          [(key, record)] := rfl
      rw [hput, latest_append]
      obtain ⟨a, ha, rfl⟩ := Option.map_eq_some_iff.mp h
      by_cases hk : k = key
      · subst hk
        rw [SharedCacheCall.run, SharedCache.put, SharedCache.insert, AList.lookup_insert] at ha
        cases ha
        exact Function.update_self ..
      · rw [SharedCacheCall.run, SharedCache.put, SharedCache.insert, AList.lookup_insert_ne hk]
          at ha
        rw [Function.update_of_ne hk]
        exact ih (Option.map_eq_some_iff.mpr ⟨a, (lookup_evict.mp ha).1, rfl⟩)

/-- How many different keys were put. -/
def putCount (calls : List (SharedCacheCall V)) : Nat := (putKeys calls).toFinset.card

theorem putKeys_of_isPrefix {before : List (SharedCacheCall V)} (h : before <+: calls) :
    putKeys before <+: putKeys calls :=
  h.filterMap _

theorem putCount_le {before : List (SharedCacheCall V)} (h : before <+: calls) :
    putCount before ≤ putCount calls := by
  refine Finset.card_le_card fun k hk => ?_
  rw [List.mem_toFinset] at hk ⊢
  exact (putKeys_of_isPrefix h).subset hk

/-- The cache holds everything that was ever put. -/
structure HoldsAll (c : SharedCache V) (calls : List (SharedCacheCall V)) : Prop where
  records : ∀ k, k ∈ c.records ↔ k ∈ putKeys calls
  size_records : size c.records = putCount calls
  length_order : c.order.length = (putKeys calls).length

theorem HoldsAll.append {c : SharedCache V} (h : HoldsAll c calls) (hmax : putCount calls ≤ max)
    (call : SharedCacheCall V) : HoldsAll (call.run max c) (calls ++ [call]) := by
  cases call with
  | get key =>
    have hkeys : putKeys (calls ++ [.get key]) = putKeys calls := putKeys_get ..
    refine ⟨fun k => ?_, ?_, ?_⟩
    · rw [hkeys]
      exact h.records k
    · rw [putCount, hkeys]
      exact h.size_records
    · rw [hkeys]
      exact h.length_order
  | put key record =>
    have hput : SharedCacheCall.run max c (.put key record) = _ :=
      SharedCache.put_of_le (h.size_records ▸ hmax) key record
    have hkeys : putKeys (calls ++ [.put key record]) = putKeys calls ++ [key] := putKeys_put ..
    rw [hput]
    refine ⟨fun k => ?_, ?_, ?_⟩
    · rw [hkeys, AList.mem_insert, h.records, List.mem_append, List.mem_singleton, or_comm]
    · have hset : (putKeys calls ++ [key]).toFinset = insert key (putKeys calls).toFinset := by
        rw [List.toFinset_append, Finset.union_comm]
        rfl
      rw [putCount, hkeys, hset]
      by_cases hk : key ∈ putKeys calls
      · rw [size_insert_of_mem ((h.records key).mpr hk),
          Finset.card_insert_of_mem (List.mem_toFinset.mpr hk)]
        exact h.size_records
      · rw [size_insert_of_not_mem (fun hmem => hk ((h.records key).mp hmem)),
          Finset.card_insert_of_notMem (fun hmem => hk (List.mem_toFinset.mp hmem))]
        exact congrArg Nat.succ h.size_records
    · rw [hkeys, List.length_append, List.length_append, h.length_order]
      rfl

/-- As long as no more keys are put than the limit says, nothing is evicted. -/
theorem holdsAll_runCalls (hmax : putCount calls ≤ max) : HoldsAll (runCalls max calls) calls := by
  induction calls using List.reverseRecOn with
  | nil => exact ⟨fun k => by simp [runCalls, SharedCache.init, putKeys], rfl, rfl⟩
  | append_singleton calls call ih =>
    have hle := Nat.le_trans (putCount_le (List.prefix_append calls [call])) hmax
    rw [runCalls_append]
    exact (ih hle).append hle call

/-- **The shared cache is bounded exactly when nothing is ever evicted**: after every put there are
at most `max` records and the queue is no longer than `bound max`, if and only if at most `max`
different keys are put, in at most `bound max` puts. -/
theorem shared_cache_bounded_iff (max : Nat) (bound : Nat → Nat)
    (calls : List (SharedCacheCall V)) :
    (∀ before key record, before ++ [.put key record] <+: calls →
      size (runCalls max (before ++ [.put key record])).records ≤ max ∧
        (runCalls max (before ++ [.put key record])).order.length ≤ bound max) ↔
      putCount calls ≤ max ∧ (putKeys calls).length ≤ bound max := by
  constructor
  · intro h
    induction calls using List.reverseRecOn with
    | nil => exact ⟨Nat.zero_le _, Nat.zero_le _⟩
    | append_singleton calls call ih =>
      have hcalls := ih fun before key record hbefore =>
        h before key record (hbefore.trans (List.prefix_append ..))
      have hall := (holdsAll_runCalls hcalls.1).append hcalls.1 call
      rw [← runCalls_append] at hall
      rw [← hall.size_records, ← hall.length_order]
      cases call with
      | put key record => exact h calls key record List.prefix_rfl
      | get key =>
        rw [hall.size_records, hall.length_order, putCount, putKeys_get]
        exact hcalls
  · intro ⟨hmax, hbound⟩ before key record hbefore
    have hall := holdsAll_runCalls (Nat.le_trans (putCount_le hbefore) hmax)
    rw [hall.size_records, hall.length_order]
    exact ⟨Nat.le_trans (putCount_le hbefore) hmax,
      Nat.le_trans (putKeys_of_isPrefix hbefore).length_le hbound⟩

end calls

/-! ### A cache that outgrows its limit -/

namespace Outgrown

/-- A key of the shared cache. -/
def key (n : Nat) : SharedCacheKey := ⟨0, ⟨n, []⟩⟩

/-- A record. -/
def record : SharedCacheRecord Nat := ⟨0, [], 0, 0, false⟩

/-- Two records stay, where the limit is one. -/
theorem second_record_stays :
    size (runCalls 1 [.put (key 0) record, .put (key 1) record]).records = 2 := by decide

/-- Putting one key again and again makes the queue longer than any bound. -/
theorem queue_outgrows (bound : Nat → Nat) : ∃ calls : List (SharedCacheCall Nat),
    putKeys calls = List.replicate (bound 1 + 1) (key 0) ∧
      bound 1 < (runCalls 1 calls).order.length := by
  let calls := List.replicate (bound 1 + 1) (SharedCacheCall.put (key 0) record)
  have hkeys : putKeys calls = List.replicate (bound 1 + 1) (key 0) :=
    List.filterMap_replicate_of_some rfl
  have hcount : putCount calls ≤ 1 := by
    rw [putCount, hkeys, List.toFinset_replicate_of_ne_zero (Nat.succ_ne_zero _)]
    exact Nat.le_refl 1
  refine ⟨calls, hkeys, ?_⟩
  rw [(holdsAll_runCalls hcount).length_order, hkeys, List.length_replicate]
  exact Nat.lt_succ_self _

/-- **The shared cache is not bounded**, neither in its records by the limit nor in its queue by a
function of the limit. -/
theorem shared_cache_is_not_bounded :
    (¬ ∀ calls : List (SharedCacheCall Nat), size (runCalls 1 calls).records ≤ 1) ∧
      ¬ ∃ bound : Nat → Nat, ∀ calls : List (SharedCacheCall Nat),
        (runCalls 1 calls).order.length ≤ bound 1 := by
  constructor
  · intro h
    have htwo := h [.put (key 0) record, .put (key 1) record]
    rw [second_record_stays] at htwo
    omega
  · rintro ⟨bound, h⟩
    obtain ⟨calls, -, hlt⟩ := queue_outgrows bound
    exact Nat.not_le_of_lt hlt (h calls)

end Outgrown

/-! ## 3. Puts from many threads -/

namespace SharedPuts

abbrev ThreadId := Nat

/-- Where the put of a thread is. -/
inductive PutPc (V : Type) where
  | idle
  /-- with its insert id, about to lock the queue -/
  | taken (max : Nat) (key : SharedCacheKey) (record : SharedCacheRecord V) (id : Nat)
  /-- the lock is released, about to insert the record -/
  | enqueued (key : SharedCacheKey) (record : SharedCacheRecord V) (id : Nat)

inductive Label (V : Type) where
  /-- a thread calls `shared_cache_put`, at the limit that it reads -/
  | put (t : ThreadId) (max : Nat) (key : SharedCacheKey) (record : SharedCacheRecord V)
  | step (t : ThreadId)
  | get (t : ThreadId) (key : SharedCacheKey)

/-- The cache, the threads, and the results of their lookups. -/
structure State (V : Type) where
  cache : SharedCache V
  threads : ThreadId → PutPc V
  log : List (ThreadId × Option (SharedCacheRecord V))

namespace State

def init : State V := ⟨.init, fun _ => .idle, []⟩

/-- No put is in progress. -/
def Quiet (s : State V) : Prop := ∀ t, s.threads t = .idle

/-- A thread changes the cache and goes on. -/
def goto (s : State V) (t : ThreadId) (pc : PutPc V) (cache : SharedCache V) : State V :=
  { s with cache, threads := Function.update s.threads t pc }

theorem threads_goto {s : State V} {t t' : ThreadId} {pc pc' : PutPc V} {cache : SharedCache V}
    (h : (s.goto t pc cache).threads t' = pc') : pc = pc' ∨ s.threads t' = pc' := by
  have h : Function.update s.threads t pc t' = pc' := h
  rcases eq_or_ne t' t with rfl | hne
  · rw [Function.update_self] at h
    exact .inl h
  · rw [Function.update_of_ne hne] at h
    exact .inr h

end State

/-- One step of a thread. -/
def step (s : State V) : Label V → Option (State V)
  | .put t max key record =>
    match s.threads t with
    | .idle => some (s.goto t (.taken max key record s.cache.nextInsertId) s.cache.takeInsertId)
    | _ => none
  | .step t =>
    match s.threads t with
    | .idle => none
    | .taken max key record id =>
      some (s.goto t (.enqueued key record id) (s.cache.enqueue max key id))
    | .enqueued key record id => some (s.goto t .idle (s.cache.insert key record id))
  | .get t key =>
    match s.threads t with
    | .idle => some { s with log := s.log ++ [(t, s.cache.get key)] }
    | _ => none

/-- The step does not pop the entry of a put whose record is not inserted yet. -/
def SparesPuts (s : State V) (l : Label V) : Prop :=
  ∀ t max key record id, l = .step t → s.threads t = .taken max key record id →
    ∀ t' key' record' id', s.threads t' = .enqueued key' record' id' →
      (key', id') ∉ s.cache.evicted max key id

/-- Every record has its entry in the queue, and every put whose record is to be inserted. -/
structure Evictable (s : State V) : Prop where
  cache : s.cache.Evictable
  puts : ∀ t key record id, s.threads t = .enqueued key record id → (key, id) ∈ s.cache.order

theorem evictable_init : Evictable (State.init : State V) :=
  ⟨SharedCache.evictable_init, fun _ _ _ _ => nofun⟩

/-- **A step that spares the puts under way** keeps every record and every such put queued. -/
theorem Evictable.step {s s' : State V} {l : Label V} (h : Evictable s)
    (hs : SharedPuts.step s l = some s') (hl : SparesPuts s l) : Evictable s' := by
  cases l with
  | put t max key record =>
    simp only [SharedPuts.step] at hs
    split at hs <;> cases hs
    refine ⟨h.cache, fun t' key' record' id' ht' => ?_⟩
    rcases State.threads_goto ht' with heq | ht'
    · cases heq
    · exact h.puts t' key' record' id' ht'
  | get t key =>
    simp only [SharedPuts.step] at hs
    split at hs <;> cases hs
    exact ⟨h.cache, h.puts⟩
  | step t =>
    simp only [SharedPuts.step] at hs
    split at hs
    · cases hs
    · next max key record id ht =>
      cases hs
      obtain ⟨hcache, hmem, -⟩ := h.cache.enqueue max key id
      refine ⟨hcache, fun t' key' record' id' ht' => ?_⟩
      rcases State.threads_goto ht' with heq | ht'
      · cases heq
        exact hmem
      · have hspared := hl t max key record id rfl ht t' key' record' id' ht'
        have hqueued := List.mem_append_left [(key, id)] (h.puts t' key' record' id' ht')
        rw [← popped_append InsertedRecord.insertId max s.cache.records
          (s.cache.order ++ [(key, id)]),
          List.mem_append] at hqueued
        exact hqueued.resolve_left hspared
    · next key record id ht =>
      cases hs
      refine ⟨h.cache.insert (h.puts t key record id ht) record, fun t' key' record' id' ht' => ?_⟩
      rcases State.threads_goto ht' with heq | ht'
      · cases heq
      · exact h.puts t' key' record' id' ht'

/-- **Every record stays evictable**, in every interleaving of puts and lookups in which no eviction
pops the entry of a put whose record is not inserted yet: each record has its own entry in the
queue, not only when no put is in progress, so that evicting down to any limit succeeds, and
removes the records whose entries come first. -/
theorem shared_cache_stays_evictable {ls : List (Label V)} {s : State V}
    (h : Trans.Steps step (fun s l _ => SparesPuts s l) .init ls s) :
    (∀ k r, s.cache.records.lookup k = some r → (k, r.insertId) ∈ s.cache.order) ∧
      ∀ max, ∃ popped rest, s.cache.order = popped ++ rest ∧
        (evict InsertedRecord.insertId max s.cache.records s.cache.order).2 = rest ∧
        size (evict InsertedRecord.insertId max s.cache.records s.cache.order).1 ≤ max ∧
        ∀ k r, (evict InsertedRecord.insertId max s.cache.records s.cache.order).1.lookup k =
          some r ↔
          s.cache.records.lookup k = some r ∧ (k, r.insertId) ∉ popped := by
  have hinv := h.invariant evictable_init fun _ _ _ hI hs hl => hI.step hs hl
  refine ⟨hinv.cache, fun max =>
    ⟨_, _, (popped_append ..).symm, rfl, Queued.size_evict hinv.cache, ?_⟩⟩
  exact fun k r => lookup_evict

/-! ### An eviction that takes the entry of a put under way -/

namespace Orphan

open Outgrown

/-- Thread 1 puts a key, without interruption. -/
def whole (n : Nat) : List (Label Nat) := [.put 1 1 (key n) record, .step 1, .step 1]

/-- Thread 0 queues key 0.  Before it inserts the record, thread 1 puts three keys. -/
def interrupted : List (Label Nat) :=
  [.put 0 1 (key 0) record, .step 0] ++ whole 1 ++ whole 2 ++ whole 3 ++ [.step 0]

/-- **A record without an entry in the queue**: no put is in progress any more, the record of key 0
is there, and evicting all there is in the queue leaves it. -/
theorem record_without_entry : ∃ s, Trans.run step .init interrupted = some s ∧ s.Quiet ∧
    (s.cache.records.lookup (key 0)).map InsertedRecord.insertId = some 1 ∧
    (key 0, 1) ∉ s.cache.order ∧
    (evict InsertedRecord.insertId 0 s.cache.records s.cache.order).1.keys = [key 0] := by
  refine ⟨_, rfl, fun t => ?_, by decide +kernel, by decide +kernel, by decide +kernel⟩
  match t with
  | 0 => rfl
  | 1 => rfl
  | t + 2 => rfl

/-- Thread 1 puts three keys, and thread 0 queues key 0 before the last of them evicts. -/
def spared : List (Label Nat) :=
  whole 1 ++ whole 2 ++ [.put 0 1 (key 0) record, .step 0] ++ whole 3 ++ [.step 0]

/-- Where a put of either thread is, its entry is not popped. -/
def spares (s : State Nat) : Label Nat → Bool
  | .step t =>
    match s.threads t with
    | .taken max key _ id => [0, 1].all fun t' =>
      match s.threads t' with
      | .enqueued key' _ id' => (key', id') ∉ s.cache.evicted max key id
      | _ => true
    | _ => true
  | _ => true

/-- The thread of a label. -/
def thread : Label Nat → ThreadId
  | .put t .. | .step t | .get t _ => t

/-- No other threads do anything. -/
def TwoThreads (s : State Nat) : Prop := ∀ t, s.threads t = .idle ∨ t = 0 ∨ t = 1

theorem TwoThreads.step {s s' : State Nat} {l : Label Nat} (h : TwoThreads s)
    (hs : SharedPuts.step s l = some s') (hl : thread l = 0 ∨ thread l = 1) : TwoThreads s' := by
  have hgoto : ∀ t pc cache, t = 0 ∨ t = 1 → TwoThreads (s.goto t pc cache) := by
    intro t pc cache ht t'
    rcases eq_or_ne t' t with rfl | hne
    · exact .inr ht
    · exact (h t').imp (fun hidle => (Function.update_of_ne hne ..).trans hidle) id
  cases l with
  | put t max key record =>
    simp only [SharedPuts.step] at hs
    split at hs <;> cases hs
    exact hgoto _ _ _ hl
  | step t =>
    simp only [SharedPuts.step] at hs
    split at hs <;> cases hs <;> exact hgoto _ _ _ hl
  | get t key =>
    simp only [SharedPuts.step] at hs
    split at hs <;> cases hs
    exact h

theorem TwoThreads.sparesPuts {s : State Nat} {l : Label Nat} (h : TwoThreads s)
    (hl : spares s l = true) : SparesPuts s l := by
  intro t max key record id heq ht t' key' record' id' ht'
  subst heq
  simp only [spares, ht, List.all_cons, List.all_nil, Bool.and_true, Bool.and_eq_true] at hl
  rcases h t' with hidle | rfl | rfl
  · cases hidle.symm.trans ht'
  · simpa [ht'] using hl.1
  · simpa [ht'] using hl.2

/-- Records that are queued in good time have their entries. -/
theorem record_with_entry : ∃ s, Trans.run step .init spared = some s ∧
    ∀ k r, s.cache.records.lookup k = some r → (k, r.insertId) ∈ s.cache.order := by
  have hrun :
      (Trans.run (fun s l => if spares s l then step s l else none) .init spared).isSome := by
    decide +kernel
  obtain ⟨s, hs⟩ := Option.isSome_iff_exists.mp hrun
  have hsteps := Trans.Steps.of_checked_run _ hs
  have hthreads : ∀ l ∈ spared, thread l = 0 ∨ thread l = 1 := by decide
  obtain ⟨hspared, -⟩ := hsteps.strengthen (I := TwoThreads) (fun _ => .inl rfl)
    fun m l m' hI hl hok => ⟨hI.step hl (hthreads l hok.1), hI.sparesPuts hok.2⟩
  exact ⟨s, hsteps.run, (shared_cache_stays_evictable hspared).1⟩

end Orphan

end SharedPuts

end Picante

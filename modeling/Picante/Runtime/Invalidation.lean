/-
# Invalidation events

An effective `set` or `remove` tells the subscribers of its view which cached results it makes
doubtful: `propagate_invalidation` (`runtime.rs`) walks the reverse dependency graph from the slot,
breadth first, and emits an event for every query it meets.

The walk knows the graph only, not the cells.  Where the graph has every ready cell under its
recorded dependencies (`View.Registered`), the walk meets every ready cell whose lists lead to the
slot (`mem_propagateInvalidation`).  As far as the graph goes the walk is exact: it ends, and it
meets every query that reaches the slot through the stored lists once, and no other
(`propagation_is_exact`).

The order in which iterating over the sets of the graph yields their elements is a parameter
(`GraphOrder`).
-/
import Picante.Graph.Search
import Picante.Persist.RoundTrip

namespace Picante

variable {V : Type}

/-! ## 1. Events -/

/-- What a change of an input emits. -/
inductive RuntimeEvent where
  | revisionBumped (revision : Revision)
  | inputSet (revision : Revision) (key : DynKey)
  | inputRemoved (revision : Revision) (key : DynKey)
  | queryInvalidated (revision : Revision) (query : DynKey) (source : DynKey)
  deriving DecidableEq, Repr

/-- The queries in the dependency graph of a runtime, and what iterating over the dependents of a
key yields. -/
structure GraphOrder where
  queries : List DynKey
  dependents : DynKey → List DynKey

/-- The order is one of the graph of `r`. -/
structure GraphOrder.Lists (o : GraphOrder) (r : Runtime) : Prop where
  dependents : ∀ d q, q ∈ o.dependents d ↔ r.reverseDeps d q = true
  queries : ∀ d q, r.reverseDeps d q = true → q ∈ o.queries

namespace GraphOrder

variable (o : GraphOrder) (rev : Revision)

/-- The events for all queries that depend on `source`; no query comes up twice, so one round for
each of them is enough. -/
def propagateInvalidation (source : DynKey) : List RuntimeEvent :=
  (Graph.breadthFirst o.dependents (o.queries.length + 1) [source] [source]).map
    (.queryInvalidated rev · source)

/-- The events of a `set`. -/
def notifyInputSet (key : DynKey) : List RuntimeEvent :=
  .inputSet rev key :: o.propagateInvalidation rev key

/-- The events of a `remove`. -/
def notifyInputRemoved (key : DynKey) : List RuntimeEvent :=
  .inputRemoved rev key :: o.propagateInvalidation rev key

end GraphOrder

/-- What a call of `set` or `remove` emits: nothing, if it finds nothing to do. -/
def Config.mutateEvents [DecidableEq V] (w : World V) (o : GraphOrder) (view : ViewId) (k : DynKey)
    (value : Option V) : List RuntimeEvent :=
  if noChange (w.inputs view) k value then []
  else
    let rev := (mutateWorld w view k value).rev view
    match value with
    | some _ => .revisionBumped rev :: o.notifyInputSet rev k
    | none => .revisionBumped rev :: o.notifyInputRemoved rev k

/-! ## 2. What the walk meets -/

/-- The cell of `q` is ready, and `d` is on its recorded list. -/
def View.Depends (v : View V) (q d : DynKey) : Prop :=
  ∃ r, (v.cells q).state = .ready r ∧ d ∈ r.deps

/-- Every ready cell is found in the reverse graph under all its recorded dependencies. -/
def View.Registered (v : View V) : Prop :=
  ∀ q d, v.Depends q d → v.runtime.reverseDeps d q = true

section walk

variable {o : GraphOrder} {v : View V} {k q : DynKey}

/-- What reaches `k` against the edges is met by the walk. -/
theorem mem_walk_of_reach {r : Runtime} (ho : o.Lists r)
    (hreach : Relation.ReflTransGen (fun a b => b ∈ o.dependents a) k q) (hne : q ≠ k) :
    q ∈ Graph.breadthFirst o.dependents (o.queries.length + 1) [k] [k] := by
  refine Graph.mem_breadthFirst (U := o.queries.toFinset) (fun a b hb => ?_) ?_ hreach hne
  · exact List.mem_toFinset.mpr (ho.queries a b ((ho.dependents a b).mp hb))
  · exact Nat.succ_le_succ (List.toFinset_card_le o.queries)

/-- **The walk meets every ready cell that depends on the slot.** -/
theorem mem_propagateInvalidation (hv : v.Registered) (ho : o.Lists v.runtime)
    (hdep : Relation.TransGen v.Depends q k) (hne : q ≠ k) (rev : Revision) :
    .queryInvalidated rev q k ∈ o.propagateInvalidation rev k := by
  have hreach : Relation.ReflTransGen (fun a b => b ∈ o.dependents a) k q := by
    refine Relation.ReflTransGen.mono (fun a b hab => ?_) k q hdep.to_reflTransGen.swap
    exact (ho.dependents a b).mpr (hv b a hab)
  exact List.mem_map_of_mem (f := fun q => RuntimeEvent.queryInvalidated rev q k)
    (mem_walk_of_reach ho hreach hne)

/-- A call that changes something tells of everything the walk meets. -/
theorem mem_mutateEvents [DecidableEq V] {w : World V} {view : ViewId} {value : Option V}
    (heff : Config.noChange (w.inputs view) k value = false) {e : RuntimeEvent}
    (he : e ∈ o.propagateInvalidation ((Config.mutateWorld w view k value).rev view) k) :
    e ∈ Config.mutateEvents w o view k value := by
  unfold Config.mutateEvents
  rw [if_neg (by rw [heff]; nofun)]
  cases value with
  | some v => exact List.mem_cons_of_mem _ (List.mem_cons_of_mem _ he)
  | none => exact List.mem_cons_of_mem _ (List.mem_cons_of_mem _ he)

end walk

/-! ## 3. What the walk emits -/

namespace Runtime

/-- The list stored for `q` has `d` on it. -/
def Stored (r : Runtime) (q d : DynKey) : Prop := ∃ deps, r.depsByQuery q = some deps ∧ d ∈ deps

/-- The graph after some calls of `update_query_deps`, one after another, from the empty one. -/
def updated (r : Runtime) (calls : List (DynKey × List Dep)) : Runtime :=
  calls.foldl (fun r call => r.updateQueryDeps call.1 call.2) r.clearDependencyGraph

/-- **After any calls the reverse graph is the inverse of the stored lists.** -/
theorem inverse_updated (r : Runtime) (calls : List (DynKey × List Dep)) :
    (r.updated calls).Inverse := by
  have hcalls : ∀ {r : Runtime}, r.Inverse →
      (calls.foldl (fun r call => r.updateQueryDeps call.1 call.2) r).Inverse := by
    induction calls with
    | nil => exact fun h => h
    | cons call calls ih => exact fun h => ih (h.updateQueryDeps call.1 call.2)
  exact hcalls (inverse_clearDependencyGraph r)

/-- A list that is stored is one that a query was updated with. -/
theorem mem_calls_of_deps {r : Runtime} {calls : List (DynKey × List Dep)} {q : DynKey}
    {deps : List Dep} (h : (r.updated calls).depsByQuery q = some deps) : (q, deps) ∈ calls := by
  have hcalls : ∀ {r : Runtime},
      (calls.foldl (fun r call => r.updateQueryDeps call.1 call.2) r).depsByQuery q = some deps →
        (q, deps) ∈ calls ∨ r.depsByQuery q = some deps := by
    clear h
    induction calls with
    | nil => exact .inr
    | cons call calls ih =>
      intro r h
      rcases ih h with hmem | hdeps
      · exact .inl (List.mem_cons_of_mem _ hmem)
      · by_cases hq : q = call.1
        · subst hq
          simp only [updateQueryDeps, Function.update_self, Option.some.injEq] at hdeps
          exact .inl (hdeps ▸ List.mem_cons_self ..)
        · refine .inr ?_
          simpa [updateQueryDeps, Function.update_of_ne hq] using hdeps
  rcases hcalls h with hmem | hdeps
  · exact hmem
  · cases hdeps

/-- Only a query that was updated has a list. -/
theorem mem_calls_of_stored {r : Runtime} {calls : List (DynKey × List Dep)} {q d : DynKey}
    (h : (r.updated calls).Stored q d) : q ∈ calls.map Prod.fst := by
  obtain ⟨deps, hdeps, -⟩ := h
  exact List.mem_map_of_mem (mem_calls_of_deps hdeps)

end Runtime

/-- An order of the graph after some calls. -/
def GraphOrder.ofCalls (r : Runtime) (calls : List (DynKey × List Dep)) : GraphOrder where
  queries := calls.map Prod.fst
  dependents d := (calls.map Prod.fst).filter fun q => (r.updated calls).reverseDeps d q

theorem GraphOrder.lists_ofCalls (r : Runtime) (calls : List (DynKey × List Dep)) :
    (ofCalls r calls).Lists (r.updated calls) where
  dependents d q := by
    refine List.mem_filter.trans ⟨And.right, fun h => ⟨?_, h⟩⟩
    exact Runtime.mem_calls_of_stored ((r.inverse_updated calls d q).mp h)
  queries d q h := Runtime.mem_calls_of_stored ((r.inverse_updated calls d q).mp h)

section exact

variable {o : GraphOrder} {r : Runtime} {k q : DynKey}

/-- What the walk reports is what reaches the source through the stored lists. -/
theorem mem_walk (hr : r.Inverse) (ho : o.Lists r) :
    q ∈ Graph.breadthFirst o.dependents (o.queries.length + 1) [k] [k] ↔
      q ≠ k ∧ Relation.TransGen r.Stored q k := by
  have hedge : ∀ a b, b ∈ o.dependents a ↔ r.Stored b a := fun a b =>
    (ho.dependents a b).trans (hr a b)
  constructor
  · intro hq
    refine ⟨fun heq => ?_, ?_⟩
    · exact Graph.not_mem_seen_breadthFirst hq (List.mem_singleton.mpr heq)
    · obtain ⟨x, hx, hreach⟩ := Graph.reached_breadthFirst hq
      obtain rfl := List.mem_singleton.mp hx
      exact Relation.TransGen.mono (fun a b hab => (hedge b a).mp hab) _ _ hreach.swap
  · rintro ⟨hne, hreach⟩
    have hback : Relation.ReflTransGen (fun a b => b ∈ o.dependents a) k q :=
      Relation.ReflTransGen.mono
        (fun a b hab => (hedge a b).mpr hab) k q hreach.to_reflTransGen.swap
    exact mem_walk_of_reach ho hback hne

/-- **Invalidation propagation is exact.**  After any calls of `update_query_deps`, one after
another, the walk from a source ends, its queue being empty then; `set` and `remove` emit an event
exactly once for each query other than the source that reaches the source through the stored lists,
and for no other query. -/
theorem propagation_is_exact (r : Runtime) (calls : List (DynKey × List Dep))
    (ho : o.Lists (r.updated calls)) (rev : Revision) (k : DynKey) :
    Graph.queueAfter o.dependents (o.queries.length + 1) [k] [k] = [] ∧
      ∀ events, events = o.notifyInputSet rev k ∨ events = o.notifyInputRemoved rev k →
        (∀ q, q ≠ k → Relation.TransGen (r.updated calls).Stored q k →
          events.count (.queryInvalidated rev q k) = 1) ∧
        ∀ rev' q k', .queryInvalidated rev' q k' ∈ events →
          rev' = rev ∧ k' = k ∧ q ≠ k ∧ Relation.TransGen (r.updated calls).Stored q k := by
  have hr := r.inverse_updated calls
  constructor
  · refine Graph.queueAfter_eq_nil (U := o.queries.toFinset) (fun a b hb => ?_) ?_
    · exact List.mem_toFinset.mpr (ho.queries a b ((ho.dependents a b).mp hb))
    · have hle := Finset.card_le_card (Finset.sdiff_subset (s := o.queries.toFinset)
        (t := [k].toFinset))
      have hlist := List.toFinset_card_le o.queries
      simp only [List.length_singleton]
      omega
  · intro events hevents
    -- the first event is about the source, the others are those of the walk
    obtain ⟨first, hfirst, rfl⟩ : ∃ first : RuntimeEvent, (∀ rev' q k',
        first ≠ .queryInvalidated rev' q k') ∧ events = first :: o.propagateInvalidation rev k := by
      rcases hevents with rfl | rfl
      · exact ⟨.inputSet rev k, (fun _ _ _ => RuntimeEvent.noConfusion), rfl⟩
      · exact ⟨.inputRemoved rev k, (fun _ _ _ => RuntimeEvent.noConfusion), rfl⟩
    constructor
    · intro q hne hreach
      have hinj : Function.Injective fun q => RuntimeEvent.queryInvalidated rev q k := by
        intro a b hab
        cases hab
        rfl
      rw [List.count_cons_of_ne (hfirst rev q k)]
      refine (List.count_map_of_injective _ _ hinj q).trans ?_
      exact List.count_eq_one_of_mem Graph.nodup_breadthFirst ((mem_walk hr ho).mpr ⟨hne, hreach⟩)
    · intro rev' q k' hmem
      rcases List.mem_cons.mp hmem with heq | hmem
      · exact absurd heq.symm (hfirst rev' q k')
      · obtain ⟨q', hq', heq⟩ := List.mem_map.mp hmem
        cases heq
        exact ⟨rfl, rfl, (mem_walk hr ho).mp hq'⟩

end exact

namespace Propagation

/-- Four queries and an input. -/
def source : DynKey := ⟨0, []⟩
def loop : DynKey := ⟨1, [1]⟩
def near : DynKey := ⟨1, [2]⟩
def far : DynKey := ⟨1, [3]⟩
def gone : DynKey := ⟨1, [4]⟩

/-- A query that depends on itself, a cycle of two, a list with a duplicate, and a list that is
replaced. -/
def calls : List (DynKey × List Dep) :=
  [(gone, [source]), (loop, [loop, source]), (near, [source, far, source]), (far, [near]),
    (gone, [gone])]

end Propagation

open Propagation in
/-- `near` and `far` reach the source, round their cycle; `gone` does no more. -/
theorem propagation_is_exact_on_cycles :
    let events := (GraphOrder.ofCalls (.new 1) calls).notifyInputSet 7 source
    events.count (.queryInvalidated 7 far source) = 1 ∧
      .queryInvalidated 7 gone source ∉ events := by
  obtain ⟨-, hset⟩ := propagation_is_exact (.new 1) calls (GraphOrder.lists_ofCalls ..) 7 source
  obtain ⟨hone, hexact⟩ := hset _ (.inl rfl)
  refine ⟨hone far (by decide) ?_, fun hgone => ?_⟩
  · have hfar : ((Runtime.new 1).updated calls).Stored far near := ⟨[near], by decide, by decide⟩
    have hnear : ((Runtime.new 1).updated calls).Stored near source :=
      ⟨[source, far, source], by decide, by decide⟩
    exact .head hfar (.single hnear)
  · obtain ⟨-, -, -, hreach⟩ := hexact _ _ _ hgone
    -- the list of `gone` has nothing but `gone` on it
    have hself : ∀ {d}, ((Runtime.new 1).updated calls).Stored gone d → d = gone := by
      rintro d ⟨deps, hdeps, hd⟩
      have hlist : ((Runtime.new 1).updated calls).depsByQuery gone = some [gone] := by decide
      rw [hlist] at hdeps
      cases hdeps
      exact List.mem_singleton.mp hd
    have hstay : ∀ {d}, Relation.TransGen ((Runtime.new 1).updated calls).Stored gone d →
        d = gone := by
      intro d hd
      induction hd with
      | single h => exact hself h
      | tail _ h ih => exact hself (ih ▸ h)
    exact absurd (hstay hreach) (by decide)

end Picante

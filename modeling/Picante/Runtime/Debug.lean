/-
# Looking at the dependency graph

`DependencyGraph` (`debug.rs`) is a copy of the two maps of a runtime, for diagnostics.

* `find_paths_exact` -- `find_paths` returns the dependency paths of fewer than 1000 edges that
  visit no query twice, each as often as its edges are listed, and nothing else.  The search
  backtracks: every way out of a call leaves the path and the set of visited queries as they were
  (`findPathsRecursive_eq`).
* `mem_leafQueries` -- `leaf_queries` returns the queries that have no dependency, as `root_queries`
  does: what it removes is everything that is listed as a dependent, not what has dependents.
* `leaf_queries_iff` -- so it returns the queries that nothing depends on exactly where these are
  the same; without a cycle, where there is no edge at all (`no_edges_of_leafQueries`).
-/
import Picante.Graph.Paths
import Picante.Runtime.Invalidation
import Mathlib.Data.Fintype.Card
import Mathlib.Data.List.AList
import Mathlib.Data.List.Nodup
import Mathlib.Data.Set.Finite.Basic
import Mathlib.Order.WellFounded

namespace Picante

/-- A copy of the graph, in the order in which iterating over the maps yields the entries. -/
structure DependencyGraph where
  forwardDeps : AList fun _ : DynKey => List Dep
  reverseDeps : AList fun _ : DynKey => List DynKey

/-- What the search for paths keeps. -/
structure PathSearch where
  path : List Dep
  visited : List DynKey
  results : List (List Dep)
  deriving DecidableEq, Repr

namespace DependencyGraph

variable (g : DependencyGraph)

/-! ## 1. Queries on the graph -/

/-- The graph has what the runtime has on file. -/
structure FromRuntime (r : Runtime) : Prop where
  forward : ∀ q, g.forwardDeps.lookup q = r.depsByQuery q
  reverse : ∀ d q, (∃ dependents, g.reverseDeps.lookup d = some dependents ∧ q ∈ dependents) ↔
    r.reverseDeps d q = true

/-- The map with what is under each of the keys, in this order. -/
def collect {A : Type} (keys : List DynKey) (entry : DynKey → Option A) :
    AList fun _ : DynKey => A :=
  (keys.filterMap fun k => (entry k).map (Sigma.mk k)).toAList

/-- `from_runtime`, where iterating over the reverse graph yields the keys `sources`. -/
def ofRuntime (r : Runtime) (o : GraphOrder) (sources : List DynKey) : DependencyGraph where
  forwardDeps := collect o.queries r.depsByQuery
  reverseDeps := collect sources fun d => some (o.dependents d)

/-- `root_queries`: those without dependencies. -/
def rootQueries : List DynKey :=
  (g.forwardDeps.entries.filter fun entry => entry.2.isEmpty).map Sigma.fst

/-- `leaf_queries`: all queries but those that are listed as dependents. -/
def leafQueries : List DynKey :=
  g.reverseDeps.entries.foldl (fun all entry => entry.2.foldl List.erase all) g.forwardDeps.keys

/-- The depth at which the search for paths stops. -/
def maxDepth : Nat := 1000

/-- `find_paths_recursive` -/
def findPathsRecursive (target current : DynKey) (s : PathSearch) (depth : Nat) : PathSearch :=
  if hdepth : depth ≥ maxDepth then s
  else if current = target then { s with results := s.results ++ [s.path] }
  else if current ∈ s.visited then s
  else
    let s := { s with visited := s.visited.insert current }
    let s :=
      match g.forwardDeps.lookup current with
      | some deps =>
        deps.foldl
          (fun (s : PathSearch) dep =>
            let s := { s with path := s.path ++ [dep] }
            let s := findPathsRecursive target dep s (depth + 1)
            { s with path := s.path.dropLast })
          s
      | none => s
    { s with visited := s.visited.erase current }
termination_by maxDepth - depth
decreasing_by omega

/-- `find_paths` -/
def findPaths (start target : DynKey) : List (List Dep) :=
  (g.findPathsRecursive target start ⟨[], [], []⟩ 0).results

theorem lookup_collect {A : Type} (keys : List DynKey) (entry : DynKey → Option A) (q : DynKey) :
    (collect keys entry).lookup q = if q ∈ keys then entry q else none := by
  rw [collect, AList.lookup_to_alist]
  induction keys with
  | nil => rfl
  | cons k keys ih =>
    cases hk : entry k with
    | none =>
      rw [List.filterMap_cons_none (by rw [hk]; rfl), ih]
      by_cases hq : q = k
      · subst hq
        simp [hk]
      · simp [hq]
    | some a =>
      rw [List.filterMap_cons_some (b := ⟨k, a⟩) (by rw [hk]; rfl)]
      by_cases hq : q = k
      · subst hq
        simp [hk]
      · rw [List.dlookup_cons_ne _ _ hq, ih]
        simp [hq]

/-- **What is captured is what the runtime has on file**, whatever the order is. -/
theorem fromRuntime_ofRuntime {r : Runtime} {o : GraphOrder} {sources : List DynKey}
    (ho : o.Lists r)
    (hqueries : ∀ q, (r.depsByQuery q).isSome → q ∈ o.queries)
    (hsources : ∀ d q, r.reverseDeps d q = true → d ∈ sources) :
    (ofRuntime r o sources).FromRuntime r where
  forward q := by
    rw [ofRuntime, lookup_collect]
    split
    · rfl
    · next hq => exact (Option.not_isSome_iff_eq_none.mp (mt (hqueries q) hq)).symm
  reverse d q := by
    rw [ofRuntime, lookup_collect, ← ho.dependents]
    constructor
    · rintro ⟨dependents, hlookup, hq⟩
      split at hlookup <;> cases hlookup
      exact hq
    · intro hq
      exact ⟨_, if_pos (hsources d q ((ho.dependents d q).mp hq)), hq⟩

/-- The graph after some calls can be captured. -/
theorem fromRuntime_ofCalls (r : Runtime) (calls : List (DynKey × List Dep)) :
    (ofRuntime (r.updated calls) (.ofCalls r calls) (calls.flatMap Prod.snd)).FromRuntime
      (r.updated calls) := by
  refine fromRuntime_ofRuntime (GraphOrder.lists_ofCalls r calls) (fun q hq => ?_)
    fun d q hd => ?_
  · obtain ⟨deps, hdeps⟩ := Option.isSome_iff_exists.mp hq
    exact List.mem_map_of_mem (Runtime.mem_calls_of_deps hdeps)
  · obtain ⟨deps, hdeps, hmem⟩ := (r.inverse_updated calls d q).mp hd
    exact List.mem_flatMap.mpr ⟨(q, deps), Runtime.mem_calls_of_deps hdeps, hmem⟩

/-! ## 2. Paths -/

/-- The dependencies of a query; none, if it is not in the graph. -/
def deps (q : DynKey) : List Dep := (g.forwardDeps.lookup q).getD []

/-- `path` leads from `start` to `target` along dependencies, is not too long, and visits no query
twice. -/
structure IsPath (start target : DynKey) (path : List Dep) : Prop where
  short : path.length < maxDepth
  edges : List.IsChain (fun q d => d ∈ g.deps q) (start :: path)
  ends : (start :: path).getLast? = some target
  nodup : (start :: path).Nodup

variable {g} {target current : DynKey}

/-- **A call of the search** adds the paths from its query to the results, each behind the path so
far, and leaves that path and the visited queries as they were. -/
theorem findPathsRecursive_eq (n : Nat) (s : PathSearch) (depth : Nat)
    (hn : maxDepth - depth = n) : g.findPathsRecursive target current s depth =
      { s with results := s.results ++
          (Graph.simplePaths g.deps target n s.visited current).map (s.path ++ ·) } := by
  induction n generalizing current s depth with
  | zero =>
    rw [findPathsRecursive, dif_pos (Nat.le_of_sub_eq_zero hn)]
    simp [Graph.simplePaths]
  | succ n ih =>
    rw [findPathsRecursive, dif_neg (by omega), Graph.simplePaths]
    by_cases htarget : current = target
    · simp [htarget]
    · by_cases hvisited : current ∈ s.visited
      · simp [htarget, hvisited]
      · rw [if_neg htarget, if_neg hvisited, if_neg htarget, if_neg hvisited]
        -- one dependency after another
        have hloop : ∀ (deps : List Dep) (s : PathSearch), deps.foldl
            (fun (s : PathSearch) dep =>
              let s := { s with path := s.path ++ [dep] }
              let s := g.findPathsRecursive target dep s (depth + 1)
              { s with path := s.path.dropLast }) s =
            { s with
              results := s.results ++ (deps.flatMap fun d =>
                (Graph.simplePaths g.deps target n s.visited d).map (d :: ·)).map
                  (s.path ++ ·) } := by
          intro deps
          induction deps with
          | nil => intro s; simp
          | cons d deps ihd =>
            intro s
            rw [List.foldl_cons, ihd]
            simp [ih _ _ (by omega : maxDepth - (depth + 1) = n), Function.comp_def]
        have hinsert : s.visited.insert current = current :: s.visited :=
          List.insert_of_not_mem hvisited
        simp only [hinsert, hloop]
        unfold deps
        cases g.forwardDeps.lookup current with
        | none => simp
        | some deps => simp

end DependencyGraph

open DependencyGraph in
/-- **Path enumeration is sound and complete**: exactly the paths come up, each as often as the
lists of its edges have duplicates; from a query to itself it is the empty path alone. -/
theorem find_paths_exact (g : DependencyGraph) (start target : DynKey) :
    (∀ path, path ∈ g.findPaths start target ↔ g.IsPath start target path) ∧
      (∀ path ∈ g.findPaths start target,
        (g.findPaths start target).count path = Graph.multiplicity g.deps start path) ∧
      (start = target → g.findPaths start target = [[]]) := by
  have hfound : g.findPaths start target =
      Graph.simplePaths g.deps target maxDepth [] start := by
    unfold findPaths
    rw [findPathsRecursive_eq maxDepth _ 0 rfl]
    simp
  have hsimple : ∀ path, Graph.SimpleTo target [] start path ↔
      (start :: path).getLast? = some target ∧ (start :: path).Nodup := fun path =>
    ⟨fun h => ⟨h.ends, h.nodup⟩, fun h => ⟨h.1, h.2, fun _ _ => List.not_mem_nil⟩⟩
  rw [hfound]
  refine ⟨fun path => ?_, fun path hpath => ?_, fun heq => ?_⟩
  · rw [Graph.mem_simplePaths, hsimple]
    exact ⟨fun ⟨hshort, ⟨hends, hnodup⟩, hedges⟩ => ⟨hshort, hedges, hends, hnodup⟩,
      fun h => ⟨h.short, ⟨h.ends, h.nodup⟩, h.edges⟩⟩
  · obtain ⟨hshort, hpath, -⟩ := Graph.mem_simplePaths.mp hpath
    rw [Graph.count_simplePaths, if_pos ⟨hshort, hpath⟩]
  · subst heq
    rw [maxDepth, Graph.simplePaths, if_pos rfl]

/-! ## 3. Leaves -/

namespace DependencyGraph

variable {g : DependencyGraph} {r : Runtime} {q d : DynKey}

theorem mem_leafQueries_iff : q ∈ g.leafQueries ↔
    q ∈ g.forwardDeps ∧ ∀ d dependents, g.reverseDeps.lookup d = some dependents →
      q ∉ dependents := by
  have hloop : ∀ (entries : List (Sigma fun _ : DynKey => List DynKey)) (all : List DynKey),
      all.Nodup → (q ∈ entries.foldl (fun all entry => entry.2.foldl List.erase all) all ↔
        q ∈ all ∧ ∀ entry ∈ entries, q ∉ entry.2) := by
    intro entries
    induction entries with
    | nil => simp
    | cons entry entries ih =>
      intro all hall
      rw [List.foldl_cons, ← List.diff_eq_foldl, ih _ hall.diff, hall.mem_sdiff_iff,
        List.forall_mem_cons, and_assoc]
  rw [leafQueries, hloop _ _ g.forwardDeps.keys_nodup, AList.mem_keys]
  refine and_congr_right fun _ => ⟨fun h d dependents hd => ?_, fun h entry hentry => ?_⟩
  · exact h ⟨d, dependents⟩ (AList.mem_lookup_iff.mp hd)
  · exact h entry.1 entry.2 (AList.mem_lookup_iff.mpr hentry)

theorem nodup_leafQueries (g : DependencyGraph) : g.leafQueries.Nodup := by
  have hloop : ∀ (entries : List (Sigma fun _ : DynKey => List DynKey)) (all : List DynKey),
      all.Nodup → (entries.foldl (fun all entry => entry.2.foldl List.erase all) all).Nodup := by
    intro entries
    induction entries with
    | nil => exact fun _ hall => hall
    | cons entry entries ih =>
      intro all hall
      rw [List.foldl_cons, ← List.diff_eq_foldl]
      exact ih _ hall.diff
  exact hloop _ _ g.forwardDeps.keys_nodup

theorem mem_rootQueries_iff : q ∈ g.rootQueries ↔ g.forwardDeps.lookup q = some [] := by
  rw [rootQueries, List.mem_map]
  constructor
  · rintro ⟨⟨q, deps⟩, hmem, rfl⟩
    obtain ⟨hentry, hempty⟩ := List.mem_filter.mp hmem
    obtain rfl : deps = [] := List.isEmpty_iff.mp hempty
    exact AList.mem_lookup_iff.mpr hentry
  · intro hlookup
    exact ⟨⟨q, []⟩, List.mem_filter.mpr ⟨AList.mem_lookup_iff.mp hlookup, rfl⟩, rfl⟩

/-- **What `leaf_queries` returns is what `root_queries` does**: the queries without
dependencies. -/
theorem mem_leafQueries (hg : g.FromRuntime r) (hr : r.Inverse) :
    q ∈ g.leafQueries ↔ q ∈ g.rootQueries := by
  -- the dependents of anything are the queries that have a dependency
  have hlisted : (∀ d dependents, g.reverseDeps.lookup d = some dependents → q ∉ dependents) ↔
      ∀ d, ¬ r.Stored q d := by
    refine forall_congr' fun d => ?_
    have hstored : r.Stored q d ↔ _ := (hr d q).symm.trans (hg.reverse d q).symm
    rw [hstored]
    constructor
    · rintro h ⟨dependents, hlookup, hq⟩
      exact h dependents hlookup hq
    · exact fun h dependents hlookup hq => h ⟨dependents, hlookup, hq⟩
  rw [mem_leafQueries_iff, hlisted, mem_rootQueries_iff, hg.forward, ← AList.lookup_isSome,
    hg.forward]
  cases hdeps : r.depsByQuery q with
  | none => simp
  | some deps => simp [Runtime.Stored, hdeps, List.eq_nil_iff_forall_not_mem]

end DependencyGraph

namespace Runtime

/-- `q` has a list, and no query has `q` on its list. -/
def IsLeaf (r : Runtime) (q : DynKey) : Prop := (r.depsByQuery q).isSome ∧ ∀ p, ¬ r.Stored p q

theorem isSome_of_stored {r : Runtime} {q d : DynKey} (h : r.Stored q d) :
    (r.depsByQuery q).isSome := by
  obtain ⟨deps, hdeps, -⟩ := h
  rw [hdeps]
  rfl

end Runtime

section leaves

variable {g : DependencyGraph} {r : Runtime} {calls : List (DynKey × List Dep)}

theorem DependencyGraph.mem_leafQueries_stored {q : DynKey} (hg : g.FromRuntime r)
    (hr : r.Inverse) :
    q ∈ g.leafQueries ↔ (r.depsByQuery q).isSome ∧ ¬ ∃ d, r.Stored q d := by
  rw [mem_leafQueries hg hr, mem_rootQueries_iff, hg.forward]
  cases hdeps : r.depsByQuery q with
  | none => simp
  | some deps => simp [Runtime.Stored, hdeps, List.eq_nil_iff_forall_not_mem]

/-- **When the leaves are returned**: exactly if the queries that have a dependency are those that
something depends on. -/
theorem leaf_queries_iff (hg : g.FromRuntime (r.updated calls)) :
    (g.leafQueries.Nodup ∧ ∀ q, q ∈ g.leafQueries ↔ (r.updated calls).IsLeaf q) ↔
      ∀ q, ((r.updated calls).depsByQuery q).isSome →
        ((∃ d, (r.updated calls).Stored q d) ↔ ∃ p, (r.updated calls).Stored p q) := by
  have hleaf : ∀ q, q ∈ g.leafQueries ↔ _ := fun q =>
    g.mem_leafQueries_stored (q := q) hg (r.inverse_updated calls)
  constructor
  · rintro ⟨-, h⟩ q hq
    have heq := (hleaf q).symm.trans (h q)
    rw [Runtime.IsLeaf, and_iff_right hq, and_iff_right hq, ← not_exists] at heq
    exact not_iff_not.mp heq
  · intro h
    refine ⟨g.nodup_leafQueries, fun q => ?_⟩
    rw [hleaf, Runtime.IsLeaf, ← not_exists]
    exact and_congr_right fun hq => not_congr (h q hq)

/-- **Without a cycle** this means that there is no edge at all. -/
theorem no_edges_of_leafQueries
    (hacyclic : ∀ q, ¬ Relation.TransGen (r.updated calls).Stored q q)
    (h : ∀ q, ((r.updated calls).depsByQuery q).isSome →
      ((∃ d, (r.updated calls).Stored q d) ↔ ∃ p, (r.updated calls).Stored p q)) (q d : DynKey) :
    ¬ (r.updated calls).Stored q d := by
  intro hstored
  -- among the queries with dependencies, one that no other leads to
  let R := fun p q : {q // q ∈ calls.map Prod.fst} =>
    Relation.TransGen (r.updated calls).Stored p.1 q.1
  have : IsTrans _ R := ⟨fun _ _ _ => Relation.TransGen.trans⟩
  have : Std.Irrefl R := ⟨fun q => hacyclic q.1⟩
  have : Finite {q // q ∈ calls.map Prod.fst} := List.finite_toSet _
  have hwf : WellFounded R := Finite.wellFounded_of_trans_of_irrefl R
  obtain ⟨top, ⟨d', htop⟩, hmin⟩ := hwf.has_min {q | ∃ d, (r.updated calls).Stored q.1 d}
    ⟨⟨q, Runtime.mem_calls_of_stored hstored⟩, d, hstored⟩
  obtain ⟨p, hp⟩ := (h top.1 (Runtime.isSome_of_stored htop)).mp ⟨d', htop⟩
  exact hmin ⟨p, Runtime.mem_calls_of_stored hp⟩ ⟨top.1, hp⟩ (.single hp)

end leaves

namespace Leaves

/-- Three queries. -/
def top : DynKey := ⟨1, [1]⟩
def bottom : DynKey := ⟨1, [2]⟩
def alone : DynKey := ⟨1, [3]⟩

/-- `top` depends on `bottom`, which has no dependency. -/
def edge : List (DynKey × List Dep) := [(top, [bottom]), (bottom, [])]

/-- `top` and `bottom` depend on each other, and `alone` on nothing. -/
def cycle : List (DynKey × List Dep) := [(top, [bottom]), (bottom, [top]), (alone, [])]

/-- What is captured after some calls. -/
def captured (calls : List (DynKey × List Dep)) : DependencyGraph :=
  .ofRuntime ((Runtime.new 1).updated calls) (.ofCalls (.new 1) calls) (calls.flatMap Prod.snd)

end Leaves

open Leaves in
/-- **The query at the bottom is returned**, and the one that nothing depends on is not. -/
theorem dependents_are_removed :
    ¬ ∀ (calls : List (DynKey × List Dep)) (g : DependencyGraph),
      g.FromRuntime ((Runtime.new 1).updated calls) →
        g.leafQueries.Nodup ∧ ∀ q, q ∈ g.leafQueries ↔
          ((Runtime.new 1).updated calls).IsLeaf q := by
  intro h
  obtain ⟨-, hleaf⟩ := h edge (captured edge) (DependencyGraph.fromRuntime_ofCalls ..)
  have hbottom : bottom ∈ (captured edge).leafQueries := by decide
  obtain ⟨-, hunused⟩ := (hleaf bottom).mp hbottom
  exact hunused top ⟨[bottom], by decide, List.mem_singleton_self _⟩

open Leaves in
/-- No query on a cycle is a leaf, and `alone` is one. -/
theorem alone_is_returned :
    (captured cycle).leafQueries = [alone] ∧ (captured cycle).leafQueries.Nodup ∧
      ∀ q, q ∈ (captured cycle).leafQueries ↔ ((Runtime.new 1).updated cycle).IsLeaf q := by
  refine ⟨by decide, (leaf_queries_iff (DependencyGraph.fromRuntime_ofCalls ..)).mpr fun q hq => ?_⟩
  have htop : ((Runtime.new 1).updated cycle).Stored top bottom :=
    ⟨[bottom], by decide, List.mem_singleton_self _⟩
  have hbottom : ((Runtime.new 1).updated cycle).Stored bottom top :=
    ⟨[top], by decide, List.mem_singleton_self _⟩
  obtain ⟨deps, hdeps⟩ := Option.isSome_iff_exists.mp hq
  have hmem := Runtime.mem_calls_of_deps hdeps
  simp only [cycle, List.mem_cons, Prod.mk.injEq, List.not_mem_nil, or_false] at hmem
  rcases hmem with ⟨rfl, -⟩ | ⟨rfl, -⟩ | ⟨rfl, -⟩
  · exact iff_of_true ⟨_, htop⟩ ⟨_, hbottom⟩
  · exact iff_of_true ⟨_, hbottom⟩ ⟨_, htop⟩
  · have hempty : ((Runtime.new 1).updated cycle).depsByQuery alone = some [] := by decide
    refine iff_of_false ?_ ?_
    · rintro ⟨d, deps', hdeps', hd⟩
      cases hempty.symm.trans hdeps'
      cases hd
    · rintro ⟨p, deps', hdeps', hp⟩
      have hcall := Runtime.mem_calls_of_deps hdeps'
      simp only [cycle, List.mem_cons, Prod.mk.injEq, List.not_mem_nil, or_false] at hcall
      rcases hcall with ⟨rfl, rfl⟩ | ⟨rfl, rfl⟩ | ⟨rfl, rfl⟩ <;> revert hp <;> decide

end Picante

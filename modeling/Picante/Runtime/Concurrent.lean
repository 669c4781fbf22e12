/-
# The dependency graph under concurrent updates

`update_query_deps` from any number of threads.  A call swaps the list of its query, takes the
query out of the sets of the dependencies that are gone, drops a set it has seen empty, and puts
the query into the sets of the new ones, in any order; each operation on a map or a set is one
step, and the guards of the map keep the lock of a shard.

* `graph_is_inverse` -- the reverse graph is the inverse of the forward one when all calls have
  returned, if every step was `Right` when it was made: no edge was taken out that the list stored
  by then has, none put in that it has not, and no set dropped that was not empty any more.
* `dropped_set_loses_edge`, `older_call_files_stale_edge` -- the steps that are not.
-/
import Picante.Key
import Picante.Trans.Run
import Mathlib.Data.List.Dedup
import Mathlib.Logic.Function.Basic

namespace Picante

namespace Graph

abbrev ThreadId := Nat

/-! ## 1. Threads -/

/-- A call in progress: the dependencies to take its query out of, and to put it into. -/
structure Task where
  query : DynKey
  olds : List Dep
  news : List Dep
  deriving DecidableEq, Repr

/-- Where a thread is. -/
inductive Pc where
  | idle
  /-- about to swap the list of the query -/
  | swap (query : DynKey) (deps : List Dep)
  /-- between two dependencies -/
  | between (task : Task)
  /-- with the shard of `d` locked for reading, about to take the query out of the set -/
  | removing (task : Task) (d : Dep)
  /-- with the shard of `d` locked for reading, about to test whether the set is empty -/
  | testing (task : Task) (d : Dep)
  /-- about to drop the set that was seen empty -/
  | dropping (task : Task) (d : Dep)
  /-- with the shard of `d` locked for writing, about to put the query into the set -/
  | adding (task : Task) (d : Dep)
  deriving DecidableEq, Repr

/-- The thread is going to take `q` out of the set of `d`. -/
def Pc.Removes (q : DynKey) (d : Dep) : Pc → Prop
  | .between task | .testing task _ | .dropping task _ | .adding task _ =>
    task.query = q ∧ d ∈ task.olds
  | .removing task d' => task.query = q ∧ (d = d' ∨ d ∈ task.olds)
  | _ => False

/-- The thread is going to put `q` into the set of `d`. -/
def Pc.Adds (q : DynKey) (d : Dep) : Pc → Prop
  | .between task | .testing task _ | .dropping task _ | .removing task _ =>
    task.query = q ∧ d ∈ task.news
  | .adding task d' => task.query = q ∧ (d = d' ∨ d ∈ task.news)
  | _ => False

inductive Label where
  | call (t : ThreadId) (query : DynKey) (deps : List Dep)
  /-- the thread turns to the dependency `d` -/
  | pick (t : ThreadId) (d : Dep)
  | step (t : ThreadId)
  deriving Repr

/-- The maps, the locks of the shards of the reverse map, and the threads. -/
structure State (σ : Type) where
  depsByQuery : DynKey → Option (List Dep)
  reverseDeps : Dep → Option (List DynKey)
  writer : σ → Option ThreadId
  readers : σ → List ThreadId
  threads : ThreadId → Pc

namespace State

variable {σ : Type}

def init : State σ := ⟨fun _ => none, fun _ => none, fun _ => none, fun _ => [], fun _ => .idle⟩

def goto (s : State σ) (t : ThreadId) (pc : Pc) : State σ :=
  { s with threads := Function.update s.threads t pc }

/-- Changes the set of `d`, if there is one. -/
def modifySet (s : State σ) (d : Dep) (f : List DynKey → List DynKey) : State σ :=
  { s with reverseDeps := Function.update s.reverseDeps d ((s.reverseDeps d).map f) }

/-- The list stored for `q`. -/
def deps (s : State σ) (q : DynKey) : List Dep := (s.depsByQuery q).getD []

/-- `q` is in the set of `d`. -/
def Filed (s : State σ) (d : Dep) (q : DynKey) : Prop := ∃ set, s.reverseDeps d = some set ∧ q ∈ set

variable [DecidableEq σ] (shard : Dep → σ)

def lockRead (s : State σ) (d : Dep) (t : ThreadId) : State σ :=
  { s with readers := Function.update s.readers (shard d) (t :: s.readers (shard d)) }

def unlockRead (s : State σ) (d : Dep) (t : ThreadId) : State σ :=
  { s with readers := Function.update s.readers (shard d) ((s.readers (shard d)).erase t) }

def lockWrite (s : State σ) (d : Dep) (t : ThreadId) : State σ :=
  { s with writer := Function.update s.writer (shard d) (some t) }

def unlockWrite (s : State σ) (d : Dep) : State σ :=
  { s with writer := Function.update s.writer (shard d) none }

/-- The next operation of a thread that has turned to a dependency, or has none left. -/
def stepThread (s : State σ) (t : ThreadId) : Option (State σ) :=
  match s.threads t with
  | .idle => none
  | .swap query deps =>
    let olds := (s.deps query).dedup.filter (· ∉ deps)
    some { s.goto t (.between ⟨query, olds, deps.dedup⟩) with
      depsByQuery := Function.update s.depsByQuery query (some deps) }
  | .between task =>
    if task.olds = [] ∧ task.news = [] then some (s.goto t .idle) else none
  | .removing task d =>
    some ((s.modifySet d (·.filter (· ≠ task.query))).goto t (.testing task d))
  | .testing task d =>
    if s.reverseDeps d = some [] then some ((s.unlockRead shard d t).goto t (.dropping task d))
    else some ((s.unlockRead shard d t).goto t (.between task))
  | .dropping task d =>
    if s.writer (shard d) = none ∧ s.readers (shard d) = [] then
      some { s.goto t (.between task) with
        reverseDeps := Function.update s.reverseDeps d none }
    else none
  | .adding task d =>
    some (((s.modifySet d (List.insert task.query)).unlockWrite shard d).goto t (.between task))

/-- The thread turns to `d`: it gets the set that the query has to leave, or the one, made if need
be, that the query has to enter. -/
def stepPick (s : State σ) (t : ThreadId) (d : Dep) : Option (State σ) :=
  match s.threads t with
  | .between task =>
    if d ∈ task.olds then
      let task := { task with olds := task.olds.erase d }
      if s.writer (shard d) = none then
        match s.reverseDeps d with
        | none => some (s.goto t (.between task))
        | some _ => some ((s.lockRead shard d t).goto t (.removing task d))
      else none
    else if task.olds = [] ∧ d ∈ task.news then
      let task := { task with news := task.news.erase d }
      if s.writer (shard d) = none ∧ s.readers (shard d) = [] then
        some { (s.lockWrite shard d t).goto t (.adding task d) with
          reverseDeps := Function.update s.reverseDeps d (some ((s.reverseDeps d).getD [])) }
      else none
    else none
  | _ => none

/-- One step. -/
def step (s : State σ) : Label → Option (State σ)
  | .call t query deps => if s.threads t = .idle then some (s.goto t (.swap query deps)) else none
  | .pick t d => s.stepPick shard t d
  | .step t => s.stepThread shard t

/-- **The operation is still right**: an edge that is taken out is not in the list that is stored
now, one that is put in is, and a set that is dropped is empty. -/
def Right (s : State σ) : Label → Prop
  | .step t =>
    match s.threads t with
    | .removing task d => d ∉ s.deps task.query
    | .adding task d => d ∈ s.deps task.query
    | .dropping _ d => ∀ q, ¬s.Filed d q
    | _ => True
  | _ => True

end State

/-! ## 2. Edges on their way -/

/-- **An edge that is not as stored is on its way** in some call; and a set that is about to be
entered is there. -/
structure Edges {σ : Type} (shard : Dep → σ) (s : State σ) : Prop where
  missing : ∀ q d, d ∈ s.deps q → ¬s.Filed d q → ∃ t, (s.threads t).Adds q d
  stale : ∀ q d, s.Filed d q → d ∉ s.deps q → ∃ t, (s.threads t).Removes q d
  locked : ∀ t task d, s.threads t = .adding task d →
    s.writer (shard d) = some t ∧ s.reverseDeps d ≠ none

section steps

variable {σ : Type} {shard : Dep → σ} {s s' : State σ} {t : ThreadId} {pc : Pc}

theorem edges_init : Edges shard (State.init : State σ) where
  missing _ _ h := nomatch h
  stale _ _ h := nomatch h
  locked _ _ _ h := nomatch h

/-- **One thread goes on.**  What it leaves of the edges was on its way elsewhere, or is on its way
in it still. -/
theorem Edges.next (h : Edges shard s) (hthreads : s'.threads = Function.update s.threads t pc)
    (hmissing : ∀ q d, d ∈ s'.deps q → ¬s'.Filed d q →
      pc.Adds q d ∨ d ∈ s.deps q ∧ ¬s.Filed d q ∧ ((s.threads t).Adds q d → pc.Adds q d))
    (hstale : ∀ q d, s'.Filed d q → d ∉ s'.deps q →
      pc.Removes q d ∨ s.Filed d q ∧ d ∉ s.deps q ∧
        ((s.threads t).Removes q d → pc.Removes q d))
    (hlocked : ∀ t' task d, s'.threads t' = .adding task d →
      s'.writer (shard d) = some t' ∧ s'.reverseDeps d ≠ none) : Edges shard s' where
  missing q d hd hfiled := by
    have hown : s'.threads t = pc := by rw [hthreads, Function.update_self]
    obtain hadds | ⟨hd, hfiled, hkeep⟩ := hmissing q d hd hfiled
    · exact ⟨t, hown ▸ hadds⟩
    · obtain ⟨t', hadds⟩ := h.missing q d hd hfiled
      rcases eq_or_ne t' t with rfl | hne
      · exact ⟨t', hown ▸ hkeep hadds⟩
      · exact ⟨t', by rwa [hthreads, Function.update_of_ne hne]⟩
  stale q d hfiled hd := by
    have hown : s'.threads t = pc := by rw [hthreads, Function.update_self]
    obtain hremoves | ⟨hfiled, hd, hkeep⟩ := hstale q d hfiled hd
    · exact ⟨t, hown ▸ hremoves⟩
    · obtain ⟨t', hremoves⟩ := h.stale q d hfiled hd
      rcases eq_or_ne t' t with rfl | hne
      · exact ⟨t', hown ▸ hkeep hremoves⟩
      · exact ⟨t', by rwa [hthreads, Function.update_of_ne hne]⟩
  locked := hlocked

/-- The other threads that are about to enter a set are as before. -/
theorem Edges.locked_ne (h : Edges shard s) (hthreads : s'.threads = Function.update s.threads t pc)
    (hpc : ∀ task d, pc = .adding task d → s'.writer (shard d) = some t ∧ s'.reverseDeps d ≠ none)
    (hkeep : ∀ t' d, t' ≠ t → s.writer (shard d) = some t' → s.reverseDeps d ≠ none →
      s'.writer (shard d) = some t' ∧ s'.reverseDeps d ≠ none) (t' : ThreadId) (task : Task)
        (d : Dep)
    (hadding : s'.threads t' = .adding task d) :
    s'.writer (shard d) = some t' ∧ s'.reverseDeps d ≠ none := by
  rw [hthreads] at hadding
  rcases eq_or_ne t' t with rfl | hne
  · rw [Function.update_self] at hadding
    exact hpc task d hadding
  · rw [Function.update_of_ne hne] at hadding
    obtain ⟨hwriter, hset⟩ := h.locked t' task d hadding
    exact hkeep t' d hne hwriter hset

/-- A thread goes on, and the maps stay as they are. -/
theorem Edges.goto (h : Edges shard s) (hthreads : s'.threads = Function.update s.threads t pc)
    (hforward : s'.depsByQuery = s.depsByQuery) (hreverse : s'.reverseDeps = s.reverseDeps)
    (hwriter : s'.writer = s.writer) (hpc : ∀ task d, pc ≠ .adding task d)
    (hadds : ∀ q d, (s.threads t).Adds q d → pc.Adds q d)
    (hremoves : ∀ q d, s.Filed d q → (s.threads t).Removes q d → pc.Removes q d) :
    Edges shard s' := by
  have hdeps : ∀ q, s'.deps q = s.deps q := fun q => by rw [State.deps, State.deps, hforward]
  have hfiled : ∀ d q, s'.Filed d q ↔ s.Filed d q := fun d q => by
    rw [State.Filed, State.Filed, hreverse]
  refine h.next hthreads (fun q d hd hno => .inr ?_) (fun q d hf hd => .inr ?_)
    (h.locked_ne hthreads (fun task d heq => absurd heq (hpc task d)) fun t' d _ hw hset => ?_)
  · rw [hdeps] at hd
    rw [hfiled] at hno
    exact ⟨hd, hno, hadds q d⟩
  · rw [hdeps] at hd
    rw [hfiled] at hf
    exact ⟨hf, hd, hremoves q d hf⟩
  · rw [hwriter, hreverse]
    exact ⟨hw, hset⟩

/-- **The list of a query is swapped**: what is gone has to be taken out, and all of the new list
to be put in. -/
theorem Edges.swap (h : Edges shard s) {query : DynKey} {deps : List Dep}
    (hpc : s.threads t = .swap query deps) :
    Edges shard
      { s.goto t (.between ⟨query, (s.deps query).dedup.filter (· ∉ deps), deps.dedup⟩) with
      depsByQuery := Function.update s.depsByQuery query (some deps) } := by
  refine h.next rfl (fun q d hd hno => ?_) (fun q d hf hd => ?_)
    (h.locked_ne rfl nofun fun t' d _ hw hset => ⟨hw, hset⟩)
  · rcases eq_or_ne q query with rfl | hne
    · simp only [State.deps, Function.update_self, Option.getD_some] at hd
      exact .inl ⟨rfl, List.mem_dedup.mpr hd⟩
    · simp only [State.deps, Function.update_of_ne hne] at hd
      exact .inr ⟨hd, hno, fun hadds => by rw [hpc] at hadds; exact hadds.elim⟩
  · rcases eq_or_ne q query with rfl | hne
    · simp only [State.deps, Function.update_self, Option.getD_some] at hd
      by_cases hold : d ∈ s.deps q
      · refine .inl ⟨rfl, List.mem_filter.mpr ⟨List.mem_dedup.mpr hold, ?_⟩⟩
        exact decide_eq_true hd
      · exact .inr ⟨hf, hold, fun hremoves => by rw [hpc] at hremoves; exact hremoves.elim⟩
    · simp only [State.deps, Function.update_of_ne hne] at hd
      exact .inr ⟨hf, hd, fun hremoves => by rw [hpc] at hremoves; exact hremoves.elim⟩

theorem filed_modifySet {f : List DynKey → List DynKey} {d d' : Dep} {q : DynKey} :
    (s.modifySet d f).Filed d' q ↔
      if d' = d then ∃ set, s.reverseDeps d = some set ∧ q ∈ f set else s.Filed d' q := by
  unfold State.Filed State.modifySet
  simp only [Function.update_apply]
  split
  · simp only [Option.map_eq_some_iff]
    constructor
    · rintro ⟨-, ⟨set, hset, rfl⟩, hq⟩
      exact ⟨set, hset, hq⟩
    · rintro ⟨set, hset, hq⟩
      exact ⟨f set, ⟨set, hset, rfl⟩, hq⟩
  · rfl

/-- **The query is taken out of the set of a dependency** that it does not have. -/
theorem Edges.remove (h : Edges shard s) {task : Task} {d : Dep}
    (hpc : s.threads t = .removing task d) (hright : d ∉ s.deps task.query) :
    Edges shard ((s.modifySet d (·.filter (· ≠ task.query))).goto t (.testing task d)) := by
  have hfiled : ∀ d' q, ((s.modifySet d (·.filter (· ≠ task.query))).goto t
      (.testing task d)).Filed d' q ↔ s.Filed d' q ∧ ¬(d' = d ∧ q = task.query) := by
    intro d' q
    refine filed_modifySet.trans ?_
    split
    · next heq =>
      subst heq
      simp [State.Filed, ← and_assoc]
    · next hne => simp [hne]
  refine h.next rfl (fun q d' hd hno => .inr ⟨hd, ?_, ?_⟩) (fun q d' hf hd => .inr ?_)
    (h.locked_ne rfl nofun fun t' d' _ hw hset => ⟨hw, ?_⟩)
  · -- the edge that went was not in the list
    intro hf
    refine hno ((hfiled d' q).mpr ⟨hf, ?_⟩)
    rintro ⟨rfl, rfl⟩
    exact hright hd
  · rw [hpc]
    exact id
  · obtain ⟨hf, hother⟩ := (hfiled d' q).mp hf
    refine ⟨hf, hd, fun hremoves => ?_⟩
    rw [hpc] at hremoves
    obtain ⟨rfl, rfl | hmem⟩ := hremoves
    · exact absurd ⟨rfl, rfl⟩ hother
    · exact ⟨rfl, hmem⟩
  · simp only [State.goto, State.modifySet, Function.update_apply]
    split
    · next heq =>
      rw [← heq]
      simpa using hset
    · exact hset

/-- **A set that is empty is dropped.** -/
theorem Edges.drop [DecidableEq σ] (h : Edges shard s) {task : Task} {d : Dep}
    (hpc : s.threads t = .dropping task d) (hfree : s.writer (shard d) = none)
    (hright : ∀ q, ¬s.Filed d q) :
    Edges shard { s.goto t (.between task) with
      reverseDeps := Function.update s.reverseDeps d none } := by
  have hfiled : ∀ d' q, State.Filed { s.goto t (.between task) with
      reverseDeps := Function.update s.reverseDeps d none } d' q ↔ s.Filed d' q := by
    intro d' q
    simp only [State.Filed, Function.update_apply]
    split
    · next heq =>
      subst heq
      refine ⟨fun ⟨_, hset, _⟩ => ?_, fun hf => absurd hf (hright q)⟩
      cases hset
    · rfl
  refine h.next rfl (fun q d' hd hno => .inr ⟨hd, (hfiled d' q).not.mp hno, ?_⟩)
    (fun q d' hf hd => .inr ⟨(hfiled d' q).mp hf, hd, ?_⟩)
    (h.locked_ne rfl nofun fun t' d' _ hw hset => ⟨hw, ?_⟩)
  · rw [hpc]
    exact id
  · rw [hpc]
    exact id
  · have hne : d' ≠ d := by
      rintro rfl
      rw [hfree] at hw
      cases hw
    exact fun hnone => hset ((Function.update_of_ne hne ..).symm.trans hnone)

/-- **The query is put into the set of a dependency** that it has. -/
theorem Edges.add [DecidableEq σ] (h : Edges shard s) {task : Task} {d : Dep}
    (hpc : s.threads t = .adding task d) (hright : d ∈ s.deps task.query) :
    Edges shard
      (((s.modifySet d (List.insert task.query)).unlockWrite shard d).goto t (.between task)) := by
  obtain ⟨hwriter, hset⟩ := h.locked t task d hpc
  have hfiled : ∀ d' q, (((s.modifySet d (List.insert task.query)).unlockWrite shard d).goto t
      (.between task)).Filed d' q ↔ s.Filed d' q ∨ d' = d ∧ q = task.query := by
    intro d' q
    refine filed_modifySet.trans ?_
    split
    · next heq =>
      subst heq
      obtain ⟨set, hset⟩ := Option.ne_none_iff_exists'.mp hset
      simp [State.Filed, hset, or_comm]
    · next hne => simp [hne]
  refine h.next rfl (fun q d' hd hno => .inr ⟨hd, fun hf => hno ((hfiled d' q).mpr (.inl hf)), ?_⟩)
    (fun q d' hf hd => .inr ?_)
    (h.locked_ne rfl nofun fun t' d' hne hw hset' => ⟨?_, ?_⟩)
  · intro hadds
    rw [hpc] at hadds
    obtain ⟨rfl, rfl | hmem⟩ := hadds
    · exact absurd ((hfiled _ _).mpr (.inr ⟨rfl, rfl⟩)) hno
    · exact ⟨rfl, hmem⟩
  · obtain hf | ⟨rfl, rfl⟩ := (hfiled d' q).mp hf
    · refine ⟨hf, hd, ?_⟩
      rw [hpc]
      exact id
    · exact absurd hright hd
  · refine (Function.update_of_ne ?_ ..).trans hw
    intro heq
    rw [heq, hwriter] at hw
    exact hne (Option.some.inj hw).symm
  · simp only [State.goto, State.unlockWrite, State.modifySet, Function.update_apply]
    split
    · next heq =>
      rw [← heq]
      simpa using hset'
    · exact hset'

/-- **The set of a dependency is got**, made if need be, for the query to enter. -/
theorem Edges.lock [DecidableEq σ] (h : Edges shard s) {task : Task} {d : Dep}
    (hpc : s.threads t = .between task) (hfree : s.writer (shard d) = none) :
    Edges shard { (s.lockWrite shard d t).goto t (.adding { task with news := task.news.erase d } d)
      with reverseDeps := Function.update s.reverseDeps d (some ((s.reverseDeps d).getD [])) } := by
  have hfiled : ∀ d' q, State.Filed
      { (s.lockWrite shard d t).goto t (.adding { task with news := task.news.erase d } d) with
        reverseDeps := Function.update s.reverseDeps d (some ((s.reverseDeps d).getD [])) } d' q ↔
      s.Filed d' q := by
    intro d' q
    simp only [State.Filed, Function.update_apply]
    split
    · next heq =>
      subst heq
      cases s.reverseDeps d' <;> simp
    · rfl
  refine h.next rfl (fun q d' hd hno => .inr ⟨hd, (hfiled d' q).not.mp hno, ?_⟩)
    (fun q d' hf hd => .inr ⟨(hfiled d' q).mp hf, hd, ?_⟩)
    (h.locked_ne rfl (fun task' d' heq => ?_) fun t' d' _ hw hset => ⟨?_, ?_⟩)
  · rw [hpc]
    rintro ⟨rfl, hmem⟩
    refine ⟨rfl, ?_⟩
    rcases eq_or_ne d' d with rfl | hne
    · exact .inl rfl
    · exact .inr ((List.mem_erase_of_ne hne).mpr hmem)
  · rw [hpc]
    exact id
  · cases heq
    refine ⟨Function.update_self .., fun hnone => ?_⟩
    have hsome := (Function.update_self ..).symm.trans hnone
    cases hsome
  · refine (Function.update_of_ne ?_ ..).trans hw
    intro heq
    rw [heq, hfree] at hw
    cases hw
  · simp only [Function.update_apply]
    split
    · nofun
    · exact hset

/-- **A step that is right** keeps the edges on their way. -/
theorem Edges.step [DecidableEq σ] (h : Edges shard s) {l : Label} (hright : s.Right l)
    (hs : s.step shard l = some s') : Edges shard s' := by
  cases l with
  | call t query deps =>
    simp only [State.step] at hs
    split at hs
    · next hpc =>
      cases hs
      exact h.goto rfl rfl rfl rfl nofun (fun q d ha => by rw [hpc] at ha; exact ha.elim)
        fun q d _ hr => by rw [hpc] at hr; exact hr.elim
    · cases hs
  | pick t d =>
    simp only [State.step, State.stepPick] at hs
    split at hs
    · next task hpc =>
      split at hs
      · split at hs
        · split at hs
          · next hnone =>
            -- there is no set to leave
            cases hs
            refine h.goto rfl rfl rfl rfl nofun
              (fun q d' => by rw [hpc]; exact id) fun q d' hf => ?_
            rw [hpc]
            rintro ⟨rfl, hmem⟩
            refine ⟨rfl, (List.mem_erase_of_ne ?_).mpr hmem⟩
            rintro rfl
            obtain ⟨set, hset, -⟩ := hf
            rw [hnone] at hset
            cases hset
          · cases hs
            refine h.goto rfl rfl rfl rfl nofun
              (fun q d' => by rw [hpc]; exact id) fun q d' hf => ?_
            rw [hpc]
            rintro ⟨rfl, hmem⟩
            refine ⟨rfl, ?_⟩
            rcases eq_or_ne d' d with rfl | hne
            · exact .inl rfl
            · exact .inr ((List.mem_erase_of_ne hne).mpr hmem)
        · cases hs
      · split at hs
        · split at hs
          · next hfree =>
            cases hs
            exact h.lock hpc hfree.1
          · cases hs
        · cases hs
    · cases hs
  | step t =>
    simp only [State.step, State.stepThread] at hs
    simp only [State.Right] at hright
    split at hs
    · cases hs
    · next query deps hpc =>
      cases hs
      exact h.swap hpc
    · next task hpc =>
      split at hs
      · next hdone =>
        cases hs
        refine h.goto rfl rfl rfl rfl nofun (fun q d ha => ?_) fun q d _ hr => ?_
        · rw [hpc] at ha
          obtain ⟨-, hmem⟩ := ha
          rw [hdone.2] at hmem
          cases hmem
        · rw [hpc] at hr
          obtain ⟨-, hmem⟩ := hr
          rw [hdone.1] at hmem
          cases hmem
      · cases hs
    · next task d hpc =>
      cases hs
      rw [hpc] at hright
      exact h.remove hpc hright
    · next task d hpc =>
      split at hs <;> cases hs
      all_goals
        exact h.goto rfl rfl rfl rfl nofun (fun q d' => by rw [hpc]; exact id)
          fun q d' _ => by rw [hpc]; exact id
    · next task d hpc =>
      rw [hpc] at hright
      split at hs
      · next hfree =>
        cases hs
        exact h.drop hpc hfree.1 hright
      · cases hs
    · next task d hpc =>
      cases hs
      rw [hpc] at hright
      exact h.add hpc hright

end steps

/-! ## 3. Runs -/

section runs

variable {σ : Type} [DecidableEq σ] {shard : Dep → σ} {s : State σ} {ls : List Label}

/-- **The reverse graph is the inverse of the forward one** when all calls have returned, if every
step was right when it was made. -/
theorem graph_is_inverse
    (hrun : Trans.Steps (State.step shard) (fun s l _ => s.Right l) .init ls s)
    (hidle : ∀ t, s.threads t = .idle) (d : Dep) (q : DynKey) : s.Filed d q ↔ d ∈ s.deps q := by
  have h : Edges shard s := hrun.invariant edges_init fun _ _ _ hm hl hok => hm.step hok hl
  constructor
  · intro hf
    by_contra hd
    obtain ⟨t, hremoves⟩ := h.stale q d hf hd
    rw [hidle] at hremoves
    exact hremoves
  · intro hd
    by_contra hf
    obtain ⟨t, hadds⟩ := h.missing q d hd hf
    rw [hidle] at hadds
    exact hadds

end runs

/-! ## 4. Steps that are not right -/

namespace Lost

def d₁ : Dep := ⟨0, [1]⟩
def d₂ : Dep := ⟨0, [2]⟩
def p : DynKey := ⟨1, [1]⟩
def q : DynKey := ⟨1, [2]⟩

/-- `q` depends on `d₁`, and changes to `d₂`; `p` comes to depend on `d₁` when the set of `d₁` was
seen empty and is not dropped yet. -/
def labels : List Label :=
  [.call 0 q [d₁], .step 0, .pick 0 d₁, .step 0, .step 0,
    .call 0 q [d₂], .step 0, .pick 0 d₁, .step 0, .step 0,
    .call 1 p [d₁], .step 1, .pick 1 d₁, .step 1, .step 1,
    .step 0, .pick 0 d₂, .step 0, .step 0]

/-- Two calls for `q` overlap: the list of the second one is stored last, and the edge of the first
one is put in last. -/
def overlapping : List Label :=
  [.call 0 q [d₁], .step 0, .call 1 q [d₂], .step 1, .pick 1 d₁, .pick 1 d₂, .step 1, .step 1,
    .pick 0 d₁, .step 0, .step 0]

end Lost

open Lost in
/-- **A set is dropped with an edge in it**: `p` depends on `d₁`, and is not in its set. -/
theorem dropped_set_loses_edge :
    ¬ ∀ (ls : List Label) (s : State Unit), Trans.run (State.step fun _ => ()) .init ls = some s →
      (∀ t, s.threads t = .idle) → ∀ d q, s.Filed d q ↔ d ∈ s.deps q := by
  intro h
  obtain ⟨s, hs⟩ : ∃ s, Trans.run (State.step fun _ => ()) (.init : State Unit) labels = some s :=
    ⟨_, rfl⟩
  have hidle : ∀ t, s.threads t = .idle := by
    cases hs
    intro t
    match t with
    | 0 | 1 | _ + 2 => rfl
  have hgone : s.reverseDeps d₁ = none ∧ d₁ ∈ s.deps p := by
    cases hs
    exact ⟨rfl, by decide⟩
  obtain ⟨set, hset, -⟩ := (h labels s hs hidle d₁ p).mpr hgone.2
  rw [hgone.1] at hset
  cases hset

open Lost in
/-- **An edge that is not stored is filed** when two calls for one query overlap: `q` is in the set
of `d₁`, and depends on `d₂` only. -/
theorem older_call_files_stale_edge :
    ∃ s : State Unit, Trans.run (State.step fun _ => ()) .init overlapping = some s ∧
      (∀ t, s.threads t = .idle) ∧ s.Filed d₁ q ∧ d₁ ∉ s.deps q := by
  obtain ⟨s, hs⟩ :
      ∃ s, Trans.run (State.step fun _ => ()) (.init : State Unit) overlapping = some s :=
    ⟨_, rfl⟩
  refine ⟨s, hs, ?_⟩
  cases hs
  refine ⟨fun t => ?_, ⟨[q], rfl, List.mem_singleton.mpr rfl⟩, by decide⟩
  match t with
  | 0 | 1 | _ + 2 => rfl

namespace Lost

/-- Whether a step is right, where the sets and the lists are finite. -/
def check (s : State Unit) : Label → Bool
  | .step t =>
    match s.threads t with
    | .removing task d => d ∉ s.deps task.query
    | .adding task d => d ∈ s.deps task.query
    | .dropping _ d => (s.reverseDeps d).getD [] = []
    | _ => true
  | _ => true

theorem right_of_check {s : State Unit} {l : Label} (h : check s l = true) : s.Right l := by
  cases l with
  | step t =>
    simp only [State.Right]
    simp only [check] at h
    split at h
    · exact of_decide_eq_true h
    · exact of_decide_eq_true h
    · rintro q ⟨set, hset, hq⟩
      have hnil := of_decide_eq_true h
      rw [hset, Option.getD_some] at hnil
      rw [hnil] at hq
      cases hq
    · trivial
  | call | pick => trivial

/-- The set of `d₁` is dropped before `p` comes to depend on it. -/
def inTime : List Label :=
  [.call 0 q [d₁], .step 0, .pick 0 d₁, .step 0, .step 0,
    .call 0 q [d₂], .step 0, .pick 0 d₁, .step 0, .step 0,
    .call 1 p [d₁], .step 1, .step 0, .pick 1 d₁, .step 1, .step 1,
    .pick 0 d₂, .step 0, .step 0]

end Lost

open Lost in
/-- Where the set is dropped in time, `p` is in the new one. -/
theorem set_dropped_in_time :
    ∃ s : State Unit, Trans.Steps (State.step fun _ => ()) (fun s l _ => s.Right l) .init inTime s ∧
      ∀ d q, s.Filed d q ↔ d ∈ s.deps q := by
  obtain ⟨s, hs⟩ : ∃ s, Trans.run (fun s l => if check s l then State.step (fun _ => ()) s l
      else none) .init inTime = some s := ⟨_, rfl⟩
  have hsteps : Trans.Steps (State.step fun _ => ()) (fun s l _ => s.Right l) .init inTime s :=
    (Trans.Steps.of_checked_run check hs).mono fun _ _ _ hok => right_of_check hok.2
  refine ⟨s, hsteps, graph_is_inverse hsteps ?_⟩
  cases hs
  intro t
  match t with
  | 0 | 1 | _ + 2 => rfl

end Graph

end Picante

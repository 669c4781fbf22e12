/-
# Sequential runs on the database

What holds of every state of a sequential run whose accesses are all on the database, whatever
its queries do: one task at most is running, its accesses wait for one another in the order of
its stack, and none of them ever follows another (`Alone.unfollowed`), since whoever leads an
entry is on that same stack with a key of its own.

* `Nested` -- the stack of a task: every access waits for the one above it, no two for one key.
* `Alone` -- one access after another, on any view: nobody follows (`Alone.unfollowed`).
* `OneView` -- the same on the database; `OneView.step`.
* `World.Kept.of_operation` -- an operation between two accesses leaves cells and records as they
  are.
-/
import Picante.Coherence.Native
import Picante.Leading

namespace Picante

open Config

variable {V : Type}

/-! ## 1. Stacks -/

/-- Every access on the stack waits for the one above it, and all their keys are different. -/
def Nested : List (Activation V) → Prop
  | [] => True
  | a :: below =>
    a.key ∉ below.map (·.key) ∧ (∀ p ∈ below.head?, p.pc.waitsFor a.key) ∧ Nested below

namespace Nested

variable {a a' p b : Activation V} {below : List (Activation V)}

/-- The top access goes on. -/
theorem goto (h : Nested (a :: below)) (hkey : a'.key = a.key) : Nested (a' :: below) := by
  obtain ⟨hnew, hwait, hbelow⟩ := h
  exact ⟨hkey ▸ hnew, fun p hp => hkey ▸ hwait p hp, hbelow⟩

/-- Another access is started by the top one, which waits for it. -/
theorem push (h : Nested (a :: below)) (hnew : b.key ∉ (a :: below).map (·.key))
    (hwait : a.pc.waitsFor b.key) : Nested (b :: a :: below) := by
  refine ⟨hnew, fun p hp => ?_, h⟩
  obtain rfl : a = p := Option.some.inj hp
  exact hwait

/-- An access below the top is waiting. -/
theorem waits (h : Nested (a :: below)) (hb : b ∈ below) : ∃ k, b.pc.waitsFor k := by
  induction below generalizing a with
  | nil => exact absurd hb List.not_mem_nil
  | cons p below ih =>
    obtain ⟨-, hwait, hbelow⟩ := h
    rcases List.mem_cons.mp hb with rfl | hb
    · exact ⟨a.key, hwait _ rfl⟩
    · exact ih hbelow hb

/-- An access with the key of the top one is the top one. -/
theorem eq_top (h : Nested (a :: below)) (hb : b ∈ a :: below) (hkey : b.key = a.key) :
    b = a := by
  rcases List.mem_cons.mp hb with rfl | hb
  · rfl
  · exact absurd (hkey ▸ List.mem_map_of_mem hb) h.1

end Nested

section stackOf

variable [DecidableEq V] {S : Schema V} {c c' : Config V} {t : TaskId}

theorem Config.TaskStep.nested (hstep : TaskStep S c t c')
    (h : ∀ t, Nested (c.tasks t).stack) : ∀ t, Nested (c'.tasks t).stack := by
  intro t'
  by_cases ht : t' = t
  · subst ht
    have hold := h t'
    cases hstep with
    | goto hst ha =>
      rw [hst] at hold
      simpa [setTask] using hold.goto ha.key
    | call hst ha =>
      rw [hst] at hold
      obtain ⟨-, -, hkey, -, hwait, hnew⟩ := ha.call_pcOk .vacant
      have hnew' := hnew
      rw [List.map_cons, ← hkey] at hnew'
      simpa [setTask] using (hold.goto hkey).push hnew' hwait
    | ret hst ha => simp [setTask, Nested]
    | resume hst ha hp =>
      rw [hst] at hold
      simpa [setTask] using Nested.goto hold.2.2 hp.key
  · rw [hstep.tasks_ne ht]
    exact h t'

end stackOf

/-! ## 2. Operations between two accesses -/

/-- Cells and shared records are as they were, for the database, and its revision is no less. -/
structure World.Kept (w w' : World V) : Prop where
  state : ∀ k, w'.state 0 k = w.state 0 k
  scope : w'.scope 0 = w.scope 0
  shared : w'.shared = w.shared
  rev : w.rev 0 ≤ w'.rev 0
  origin : w'.origin 0 = w.origin 0
  viewCount : w.viewCount ≤ w'.viewCount

section operations

variable [DecidableEq V] {S : Schema V} {c c' : Config V} {w : World V}

omit [DecidableEq V] in
theorem World.Kept.refl (w : World V) : w.Kept w :=
  ⟨fun _ => rfl, rfl, rfl, Nat.le_refl _, rfl, Nat.le_refl _⟩

omit [DecidableEq V] in
theorem World.Kept.bump (w : World V) (i : ViewId) :
    w.Kept (w.modifyRuntime i (·.bumpRevision)) := by
  refine ⟨fun k => World.state_modifyRuntime .., ?_, rfl, w.rev_le_bump i 0,
    World.origin_bumpRevision .., Nat.le_refl _⟩
  rw [World.scope_modifyRuntime]
  split
  · next h => subst h; rfl
  · rfl

theorem World.Kept.mutate (hlive : (w.origin 0).2 = false) (k : DynKey) (value : Option V) :
    w.Kept (mutateWorld w 0 k value) := by
  unfold mutateWorld
  split
  · exact .refl w
  · have hbump := World.Kept.bump w 0
    have hlive' : ((w.modifyRuntime 0 (·.bumpRevision)).views 0).runtime.isSnapshot = false :=
      (congrArg Prod.snd hbump.origin).trans hlive
    refine ⟨fun k' => ?_, ?_, rfl, ?_, ?_, Nat.le_refl _⟩
    · rw [World.state_storeInput]
      exact (congrArg ErasedCell.state (World.cell_markDivergent ..)).trans (hbump.state k')
    · rw [World.scope_storeInput, World.scope_markDivergent_of_live _ _ _ hlive']
      exact hbump.scope
    · rw [World.rev_storeInput, World.rev_markDivergent]
      exact hbump.rev
    · rw [World.origin_storeInput, World.origin_markDivergent]
      exact hbump.origin

/-- **An operation that is no access leaves the cells and the records of the database.** -/
theorem World.Kept.of_operation {l : Label V} (hs : step S c l = some c') (hop : l.isOperation)
    (hl : l.OnDatabase) (hlive : (c.world.origin 0).2 = false) (hviews : 0 < c.world.viewCount) :
    c.world.Kept c'.world := by
  cases l with
  | spawn view key want =>
    simp only [Config.step] at hs
    split at hs <;> cases hs
    exact .refl _
  | mutate view key value =>
    obtain rfl : view = 0 := hl
    simp only [Config.step] at hs
    split at hs <;> cases hs
    exact .mutate hlive key value
  | intern kind value =>
    cases hs
    exact ⟨fun _ => rfl, rfl, rfl, Nat.le_refl _, rfl, Nat.le_refl _⟩
  | bump view =>
    simp only [Config.step] at hs
    split at hs <;> cases hs
    exact .bump _ view
  | snapshot =>
    cases hs
    have hne : 0 ≠ c.world.viewCount := Nat.ne_of_lt hviews
    refine ⟨fun k => ?_, ?_, rfl, ?_, ?_, Nat.le_succ _⟩
    · rw [World.state_snapshot, if_neg hne]
    · rw [World.scope_snapshot, if_neg hne]
    · exact Nat.le_of_eq (by rw [World.rev_snapshot, if_neg hne])
    · rw [World.origin_snapshot, if_neg hne]
  | step t | drop t | «begin» view key value | advance m => cases hop

end operations

/-! ## 3. One access after another -/

/-- One task at most is running, and its accesses wait for one another. -/
structure Alone (c : Config V) : Prop where
  single : c.Single
  led : Led c
  nested : ∀ t, Nested (c.tasks t).stack

theorem alone_init : Alone (init : Config V) :=
  ⟨idle_init.single, led_init, fun _ => trivial⟩

section alone

variable [DecidableEq V] {S : Schema V} {c c' : Config V} {t : TaskId} {a : Activation V}
  {below : List (Activation V)}

/-- A step of a task. -/
theorem Alone.taskStep (h : Alone c) (hs : TaskStep S c t c') : Alone c' :=
  ⟨hs.single h.single, h.led.taskStep hs, hs.nested h.nested⟩

/-- **A sequential step**, on any view. -/
theorem Alone.step {l : Label V} (h : Alone c) (hs : step S c l = some c')
    (hl : Sequential c l c') : Alone c' := by
  refine ⟨hl.single hs h.single, led_step h.led hs, ?_⟩
  rcases hl with ⟨t, rfl⟩ | ⟨hidle, hop⟩
  · exact (taskStep_of_step hs).nested h.nested
  · intro t
    by_cases hp : c'.Pending t
    · cases l with
      | spawn view key want =>
        obtain ⟨htask, -, hothers⟩ := spawned_alone hs hidle
        obtain rfl : t = c.taskCount := Classical.byContradiction fun hne => hothers t hne hp
        rw [htask]
        exact ⟨List.not_mem_nil, nofun, trivial⟩
      | mutate view key value =>
        simp only [Config.step] at hs
        split at hs <;> cases hs
        exact h.nested t
      | intern kind value => cases hs; exact h.nested t
      | bump view =>
        simp only [Config.step] at hs
        split at hs <;> cases hs
        exact h.nested t
      | snapshot => cases hs; exact h.nested t
      | step t | drop t | «begin» view key value | advance m => cases hop
    · rw [not_not.mp hp]
      trivial

omit [DecidableEq V] in
/-- There is no other access with the key of the top one. -/
theorem Alone.eq_top (h : Alone c) (hst : (c.tasks t).stack = a :: below) {t' : TaskId} {d : Nat}
    {b : Activation V} (hb : c.act t' d = some b) (hkey : b.key = a.key) : t' = t ∧ b = a := by
  obtain rfl := h.single t t' (pending_of_stack hst) (pending_of_act hb)
  have hmem := mem_of_act hb
  have hnest := h.nested t
  rw [hst] at hmem hnest
  exact ⟨rfl, hnest.eq_top hmem hkey⟩

omit [DecidableEq V] in
/-- **Nobody follows**: an access about to lead finds nothing filed under its key. -/
theorem Alone.unfollowed (h : Alone c) (hst : (c.tasks t).stack = a :: below)
    {prev : Previous V} (hpc : a.pc = .lead prev) (scope : RuntimeId) :
    c.world.registry.filed ⟨scope, a.rev, a.key⟩ = none := by
  cases hf : c.world.registry.filed ⟨scope, a.rev, a.key⟩ with
  | none => rfl
  | some e =>
    obtain ⟨t', d, b, hb, hg⟩ := h.led.filed _ _ hf
    obtain ⟨-, hquery, -⟩ := h.led.guards _ _ _ hb _ hg
    -- the leader is on the same stack, and has the same key
    obtain ⟨-, rfl⟩ := h.eq_top hst hb hquery.symm
    have hnone := (h.led.guards _ _ _ hb).none (by rw [hpc]; rfl)
    rw [hnone] at hg
    cases hg

end alone

/-! ## 4. Runs -/

/-- The state of a sequential run whose accesses are all on the database. -/
structure OneView (c : Config V) : Prop where
  single : c.Single
  calm : Calm c
  native : Native c
  led : Led c
  nested : ∀ t, Nested (c.tasks t).stack
  live : (c.world.origin 0).2 = false
  views : 0 < c.world.viewCount

theorem OneView.alone {c : Config V} (h : OneView c) : Alone c := ⟨h.single, h.led, h.nested⟩

theorem oneView_init : OneView (init : Config V) :=
  ⟨idle_init.single, calm_init, native_init, led_init, fun _ => trivial, rfl, Nat.one_pos⟩

section runs

variable [DecidableEq V] {S : Schema V} {c c' : Config V} {t : TaskId} {a : Activation V}
  {below : List (Activation V)}

/-- **A sequential step on the database keeps it so.** -/
theorem OneView.step {l : Label V} (h : OneView c) (hs : step S c l = some c')
    (hl : SequentialIn Label.OnDatabase c l c') : OneView c' := by
  have hon : l.OnDatabase := by
    rcases hl with ⟨t, rfl⟩ | ⟨-, -, hon⟩
    · trivial
    · exact hon
  obtain ⟨hsingle, hled, hnested⟩ := h.alone.step hs hl.sequential
  refine ⟨hsingle, h.calm.step hs hl.sequential, h.native.step hs hon, hled, hnested, ?_, ?_⟩
  · rcases hl with ⟨t, rfl⟩ | ⟨-, hop, -⟩
    · rw [(taskStep_of_step hs).fixed.origin]
      exact h.live
    · rw [(World.Kept.of_operation hs hop hon h.live h.views).origin]
      exact h.live
  · exact Nat.lt_of_lt_of_le h.views (grows_step hs).viewCount

theorem oneView_run {ls : List (Label V)}
    (hrun : Trans.Steps (Config.step S) (SequentialIn Label.OnDatabase) init ls c) : OneView c :=
  hrun.invariant oneView_init fun _ _ _ h hl hok => h.step hl hok

end runs

end Picante

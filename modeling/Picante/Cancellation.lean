/-
# Cells that nobody computes

Two ways in which a cell can stay in state running with no access that will ever replace the
state, and what holds without them.

A sequential program leaves no running cell behind (`no_running_cell_between_operations`),
unless the revalidation of a shared record fails: the cell is put in state running before the
shared cache is consulted, and the `?` of that revalidation returns from the access without
restoring it (`left_running_by_failed_adoption`).

Under concurrency every running cell has its owner and every parked access somebody who will
wake it (`cells_are_minded`), unless a future is dropped that others rely on: the in-flight
guard of a leader cancels its entry when it is dropped, but nothing restores the cell
(`left_running_by_cancellation`).
-/
import Picante.Sequential

namespace Picante

open Config Trans ReadProg

variable {V : Type}

/-! ## 1. Sequential programs -/

/-- **No running cell is left when every operation has returned**, and no access of the
continued program ever waits on a cell, as long as no revalidation of a shared record fails. -/
theorem no_running_cell_between_operations [DecidableEq V] {S : Schema V} {fuel : Nat}
    {ops : List (Op V)} {c : Config V} (h : runOps S fuel init ops = some c)
    (hclean : ¬ SharedFailed c.world.log) :
    (∀ i k started o, c.world.state i k ≠ .running started o) ∧
      ∀ ls c', Steps (step S) Sequential c ls c' → ¬ SharedFailed c'.world.log →
        ∀ i k t d, ¬ c'.Parked i k t d := by
  obtain ⟨ls, hls, hidle⟩ := runOps_steps (P := fun _ => True) h idle_init fun _ _ => trivial
  have hls := hls.mono fun _ _ _ => SequentialIn.sequential
  obtain ⟨hcontrol, -⟩ := control_of_sequential hls hclean
  refine ⟨fun i k started o hs => ?_, fun ls' c' hls' hclean' i k t d => ?_⟩
  · -- the owner of a running cell would be an access in progress
    obtain ⟨pc, ⟨a, ha, -⟩, -⟩ := hcontrol.owned i k started o hs
    exact hidle o.task (pending_of_act ha)
  · obtain ⟨hcontrol', hsingle⟩ := control_of_sequential (hls.trans hls') hclean'
    exact hcontrol'.not_parked_of_single hsingle

namespace Cancellation

/-- Two input slots, a query that reads the first of them, and one that reads that query and
then the second slot. -/
def x : DynKey := ⟨0, []⟩
def y : DynKey := ⟨0, [1]⟩
def nested : DynKey := ⟨1, []⟩
def whole : DynKey := ⟨1, [1]⟩

/-- Passes on the value read, and fails on 9, on an absent slot and on an error. -/
def valid (next : Nat → Query Nat) : PicanteResult (Option Nat) → Query Nat
  | .ok (some 9) => .done (.error (.cache "bad value"))
  | .ok (some v) => next v
  | .ok none => .done (.error (.cache "no value"))
  | .error e => .done (.error e)

/-- `nested` is `x`, and `whole` the sum of `nested` and `y`. -/
def body (q : DynKey) : Query Nat :=
  if q = nested then .read x (valid fun v => .done (.ok v))
  else .read nested (valid fun v => .read y (valid fun v' => .done (.ok (v + v'))))

def schema : Schema Nat where
  sectionType kind := if kind = 0 then .input else .derived
  registered _ := true
  compute _ := body
  evicted _ := false
  decodeId _ := none

/-- `whole` is computed, then fails because of `y`, then `x` goes bad as well. -/
def program : List (Op Nat) :=
  [.mutate 0 x (some 1), .mutate 0 y (some 1), .access 0 whole true,
    .mutate 0 y (some 9), .access 0 whole true,
    .mutate 0 x (some 9), .access 0 whole true]

end Cancellation

open Cancellation in
/-- **A failed adoption leaves its cell running.**  The third access of the program looks at
the shared record of the first one; its dependency `nested` fails, and the access returns that
error with the cell of `whole` in state running. -/
theorem left_running_by_failed_adoption :
    ¬ ∀ (fuel : Nat) (ops : List (Op Nat)) (c : Config Nat),
      runOps schema fuel init ops = some c →
        ∀ i k started o, c.world.state i k ≠ .running started o := by
  intro h
  have hrun : (runOps schema 60 init program).any
      (fun c => c.world.state 0 whole = .running 4 ⟨2, 0⟩) := by decide +kernel
  obtain ⟨c, hc, hstate⟩ := (Option.any_eq_true ..).mp hrun
  exact h 60 program c hc 0 whole 4 ⟨2, 0⟩ (of_decide_eq_true hstate)

open Cancellation in
/-- A program without such a failure: its first five operations leave no running cell. -/
theorem no_running_cell_after_poisoning :
    ∃ c, runOps schema 60 init (program.take 5) = some c ∧
      ∀ i k started o, c.world.state i k ≠ .running started o := by
  have hrun : (runOps schema 60 init (program.take 5)).any
      (fun c => ¬ SharedFailed c.world.log) := by decide +kernel
  obtain ⟨c, hc, hclean⟩ := (Option.any_eq_true ..).mp hrun
  exact ⟨c, hc, (no_running_cell_between_operations hc (of_decide_eq_true hclean)).1⟩

/-! ## 2. Interleavings with cancellation -/

/-- The step drops no future that others rely on, and no revalidation of a shared record has
failed. -/
def Considerate (c : Config V) (l : Label V) (c' : Config V) : Prop :=
  (∀ t, l = .drop t → c.Droppable t) ∧ ¬ SharedFailed c'.world.log

theorem control_of_considerate [DecidableEq V] {S : Schema V} {ls : List (Label V)} {c : Config V}
    (h : Steps (step S) Considerate init ls c) : Control c :=
  h.invariant control_init fun _ _ _ hm hl hok => control_step hm hl hok.2 hok.1

/-- **A running cell has a live access that put it there and has not replaced it, and an access
parked on a cell has a live access that will notify it**, in every state an interleaving of
considerate steps reaches. -/
theorem cells_are_minded [DecidableEq V] {S : Schema V} {ls : List (Label V)} {c : Config V}
    (h : Steps (step S) Considerate init ls c) :
    (∀ i k started o, c.world.state i k = .running started o → c.Owned i k o) ∧
      ∀ i k t d, c.Parked i k t d → c.Minded i k := by
  have hcontrol := control_of_considerate h
  exact ⟨hcontrol.owned, hcontrol.minded⟩

/-- A run that drops nothing and in which no shared revalidation fails is considerate. -/
theorem considerate_of_run [DecidableEq V] {S : Schema V} {ls : List (Label V)} {c : Config V}
    (h : run (step S) init ls = some c) (hdrop : ∀ t, .drop t ∉ ls)
    (hclean : ¬ SharedFailed c.world.log) : Steps (step S) Considerate init ls c := by
  have hsteps := (Steps.of_run h).with_end (R := fun m m' => m.world.Grows m'.world)
    (fun m => .refl _) (fun _ _ _ => World.Grows.trans) fun _ _ _ => grows_step
  refine hsteps.mono fun m l m' hm => ⟨fun t ht => ?_, fun hf => hclean (hf.mono hm.2)⟩
  exact absurd (ht ▸ hm.1) (hdrop t)

namespace Cancellation

/-- An access to `nested` takes its first six steps, and computes. -/
def leader : List (Label Nat) :=
  [.mutate 0 x (some 1), .spawn 0 nested true] ++ List.replicate 6 (.step 0)

/-- A second and a third access to the same key park on its cell. -/
def waiting : List (Label Nat) :=
  leader ++ [.spawn 0 nested true, .spawn 0 nested true] ++ List.replicate 3 (.step 1) ++
    List.replicate 3 (.step 2)

end Cancellation

open Cancellation in
/-- **A dropped leader leaves its cell running for ever.**  The access is dropped while it
computes: its in-flight entry is cancelled, its cell stays in state running, and no access is
left at all. -/
theorem left_running_by_cancellation :
    ¬ ∀ (ls : List (Label Nat)) (c : Config Nat), run (step schema) init ls = some c →
      ∀ i k started o, c.world.state i k = .running started o → c.Owned i k o := by
  intro h
  have hrun : (run (step schema) init (leader ++ [.drop 0])).any (fun c =>
      c.world.state 0 nested = .running 1 ⟨0, 0⟩ ∧ (c.act 0 0).isNone) := by decide +kernel
  obtain ⟨c, hc, hstate⟩ := (Option.any_eq_true ..).mp hrun
  obtain ⟨hstate, hgone⟩ := of_decide_eq_true hstate
  obtain ⟨pc, ⟨a, ha, -⟩, -⟩ := h _ c hc 0 nested 1 ⟨0, 0⟩ hstate
  rw [ha] at hgone
  cases hgone

open Cancellation in
/-- Two accesses are parked on the cell that a third one computes, and the first of them is dropped:
nobody relies on it, and the other one is still minded. -/
theorem parked_behind_leader :
    ∃ c, Steps (step schema) Considerate init (waiting ++ [.drop 1]) c ∧
      c.Owned 0 nested ⟨0, 0⟩ ∧ c.Parked 0 nested 2 0 ∧ c.Minded 0 nested := by
  have hrun : (run (step schema) init waiting).any (fun m => ¬ SharedFailed m.world.log ∧
      (∀ a ∈ (m.tasks 1).stack, a.pc.minds = false) ∧
        (step schema m (.drop 1)).any fun c => ¬ SharedFailed c.world.log ∧
          c.world.state 0 nested = .running 1 ⟨0, 0⟩ ∧ (c.tasks 2).view = 0 ∧
            (c.act 2 0).any fun a => a.key = nested ∧
              a.pc.seen = some (c.world.cell 0 nested).epoch ∧ a.pc.retries = false) := by
    decide +kernel
  obtain ⟨m, hm, hrest⟩ := (Option.any_eq_true ..).mp hrun
  obtain ⟨hclean, hminds, hrest⟩ := of_decide_eq_true hrest
  obtain ⟨c, hc, hrest⟩ := (Option.any_eq_true ..).mp hrest
  obtain ⟨hclean', hstate, hview, hact⟩ := of_decide_eq_true hrest
  obtain ⟨a, ha, hpc⟩ := (Option.any_eq_true ..).mp hact
  obtain ⟨hkey, hseen, hretries⟩ := of_decide_eq_true hpc
  have hsteps := considerate_of_run hm (fun t => by simp [waiting, leader]) hclean
  have hdrop : Considerate m (.drop 1) c := by
    refine ⟨fun t ht => ?_, hclean'⟩
    cases ht
    exact (control_of_considerate hsteps).droppable hminds
  have hall := hsteps.snoc hc hdrop
  obtain ⟨howned, hminded⟩ := cells_are_minded hall
  have hparked : c.Parked 0 nested 2 0 := by
    refine ⟨a, ha, hview, hkey, ?_⟩
    cases hp : a.pc with
    | parked seen => rw [hp] at hseen; exact congrArg Pc.parked (Option.some.inj hseen)
    | _ => simp [hp, Pc.seen, Pc.retries] at hseen hretries
  exact ⟨c, hall, howned 0 nested 1 ⟨0, 0⟩ hstate, hparked, hminded 0 nested 2 0 hparked⟩

end Picante

/-
# Who attends to an entry

A follower waits for the in-flight entry of its leader, and nothing else than a notification of that
entry wakes it.  Whatever happens in a run -- errors, panics, tasks dropped at any await point,
inputs changed, snapshots -- an entry in state running has a live leader that has not set its state
yet, and an access parked on an entry has a live leader that has not notified it yet, or has been
notified already (`entries_are_attended`).

So the guard of a leader does for its entry what nothing does for its cell
(`left_running_by_cancellation`): when it is dropped, it sets the state of the entry and wakes
whoever waits for it.

* `Pc.decides`, `Pc.attends` -- a leader that is still to set the state of its entry, to notify its
  followers.
* `EntryEffect` -- how a step bears on entries.
* `Attended` -- the invariant; `attended_step` -- every step keeps it.
-/
import Picante.Cancellation
import Picante.Leading

namespace Picante

open Config

variable {V : Type}

/-! ## 1. What a leader owes its entry -/

/-- The operation sets the state of the entry. -/
def MicroOp.setsEntry : MicroOp V → Bool
  | .setEntry _ => true
  | _ => false

/-- The operation notifies the followers of the entry. -/
def MicroOp.notifiesEntry : MicroOp V → Bool
  | .notifyEntry => true
  | _ => false

/-- The computation has ended, in one way or the other. -/
def InFlightState.isOver : InFlightState V → Bool
  | .running => false
  | _ => true

/-- If the entry is led, its state is still to be set. -/
def Pc.decides : Pc V → Bool
  | .computing .. | .reading .. => true
  | .finishing ops => ops.any (·.setsEntry)
  | _ => false

/-- If an entry is led, its followers are still to be notified. -/
def Pc.attends : Pc V → Bool
  | .computing .. | .reading .. => true
  | .finishing ops => ops.any (·.notifiesEntry)
  | _ => false

/-- In a straight-line part the state of the entry is set, then its followers are notified, and then
the guard is given up; the part ends with its result. -/
def EntryOps : List (MicroOp V) → Prop
  | [] => False
  | .setEntry st :: ops => st.isOver = true ∧ ops.any (·.notifiesEntry) = true ∧ EntryOps ops
  | .notifyEntry :: ops => ops.any (·.setsEntry) = false ∧ EntryOps ops
  | .unregister :: ops =>
    ops.any (·.setsEntry) = false ∧ ops.any (·.notifiesEntry) = false ∧ EntryOps ops
  | .checked _ :: ops => ops = []
  | .raise _ :: ops => ops = []
  | _ :: ops => EntryOps ops

def Pc.EntryOk : Pc V → Prop
  | .finishing ops => EntryOps ops
  | _ => True

/-- The entry that is followed, and the notifications of it that had been seen. -/
def Pc.followed : Pc V → Option (EntryId × Nat)
  | .followRead e seen | .followParked e seen => some (e, seen)
  | _ => none

namespace Activation

/-- Holds the guard of the entry. -/
def Leads (e : EntryId) (a : Activation V) : Prop := ∃ g, a.guard = some g ∧ g.entry = e

/-- Leads the entry, and has not set its state. -/
def Decides (e : EntryId) (a : Activation V) : Prop := a.Leads e ∧ a.pc.decides = true

/-- Leads the entry, and has not notified its followers. -/
def Attends (e : EntryId) (a : Activation V) : Prop := a.Leads e ∧ a.pc.attends = true

end Activation

theorem EntryOps.notifies {ops : List (MicroOp V)} (h : EntryOps ops)
    (hsets : ops.any (·.setsEntry) = true) : ops.any (·.notifiesEntry) = true := by
  induction ops with
  | nil => cases hsets
  | cons op ops ih =>
    cases op with
    | setEntry st => simp [h.2.1]
    | notifyEntry => rfl
    | unregister =>
      rw [List.any_cons, h.1] at hsets
      cases hsets
    | checked r =>
      obtain rfl : ops = [] := h
      cases hsets
    | raise e =>
      obtain rfl : ops = [] := h
      cases hsets
    | updateDeps _ | setCell _ | notifyCell | putShared _ => exact ih h hsets

/-- Who is still to set the state is still to notify. -/
theorem Activation.Decides.attends {e : EntryId} {a : Activation V} (h : a.Decides e)
    (hok : a.pc.EntryOk) : a.Attends e := by
  refine ⟨h.1, ?_⟩
  have hpc := h.2
  cases hop : a.pc with
  | computing _ _ _ | reading _ _ _ _ => rfl
  | finishing ops =>
    rw [hop] at hpc hok
    exact EntryOps.notifies hok hpc
  | _ =>
    rw [hop] at hpc
    cases hpc

theorem entryOps_finalizeOps [DecidableEq V] (view : ViewId) (rev : Revision) (prev : Previous V)
    (deps : List Dep) (out : PicanteResult V) : EntryOps (finalizeOps view rev prev deps out) := by
  cases out <;> exact ⟨rfl, rfl, rfl, rfl, rfl, rfl⟩

theorem entryOk_afterRevalidation (view : ViewId) (rev : Revision) (src : Source V) (b : Bool) :
    (afterRevalidation view rev src b).EntryOk := by
  cases src <;> cases b <;> trivial

theorem followed_afterRevalidation (view : ViewId) (rev : Revision) (src : Source V) (b : Bool) :
    (afterRevalidation view rev src b).followed = none := by
  cases src <;> cases b <;> rfl

/-! ## 2. What a step does to entries -/

/-- How a step of an activation bears on entries: their states are set by their leaders, or as they
are made; whoever leads one goes on to do what is owed, or has done it. -/
structure EntryEffect (w w' : World V) (a a' : Activation V) : Prop where
  epoch : ∀ e, (w.registry.entries e).epoch ≤ (w'.registry.entries e).epoch
  running : ∀ e, (w'.registry.entries e).state.isOver = false →
    (w.registry.entries e).state.isOver = false ∨ a'.Decides e
  decides : ∀ e, a.Decides e → a'.Decides e ∨ (w'.registry.entries e).state.isOver = true
  attends : ∀ e, a.Attends e →
    a'.Attends e ∨ (w.registry.entries e).epoch < (w'.registry.entries e).epoch

section steps

variable [DecidableEq V] {S : Schema V} {w w' : World V} {view : ViewId} {task : TaskId}
  {below : List (Activation V)} {a a' : Activation V}

omit [DecidableEq V] in
/-- A step that leaves the entries alone, and the activation with what it owes. -/
theorem EntryEffect.kept (hw : w'.registry = w.registry) (hg : a'.guard = a.guard)
    (hdecides : a.pc.decides = true → a'.pc.decides = true)
    (hattends : a.pc.attends = true → a'.pc.attends = true) : EntryEffect w w' a a' where
  epoch e := hw ▸ Nat.le_refl _
  running e h := .inl (by rwa [hw] at h)
  decides e h := .inl ⟨by simpa [Activation.Leads, hg] using h.1, hdecides h.2⟩
  attends e h := .inl ⟨by simpa [Activation.Leads, hg] using h.1, hattends h.2⟩

omit [DecidableEq V] in
/-- The end of a touch. -/
theorem Touched.entry {src : Source V} {rest : List Dep} {r : PicanteResult Revision}
    (h : Touched w view a src rest r w' a') :
    a'.pc.EntryOk ∧ a'.pc.followed = none := by
  cases h with
  | unchanged _ => exact ⟨trivial, rfl⟩
  | changed _ => exact ⟨entryOk_afterRevalidation .., followed_afterRevalidation ..⟩
  | failed => exact ⟨rfl, rfl⟩

/-- **The effect of a step on the entries.** -/
theorem ActStep.entryEffect (h : ActStep S w view task below a w' (.goto a')) (hok : a.pc.EntryOk)
    (hguard : a.GuardOk w.registry) (hunmade : w.registry.Unmade) : EntryEffect w w' a a' := by
  have idle : ∀ {w' : World V} {a' : Activation V}, w'.registry = w.registry →
      a'.guard = a.guard → a.pc.decides = false → a.pc.attends = false →
        EntryEffect w w' a a' := by
    intro w' a' hw hg hd ha
    refine .kept hw hg (fun h => ?_) fun h => ?_
    · rw [hd] at h
      cases h
    · rw [ha] at h
      cases h
  cases h with
  | lead hpc _ =>
    have hnone : a.guard = none := hguard.none (by rw [hpc]; rfl)
    have hfree : ∀ e, ¬ a.Leads e := by
      rintro e ⟨g, hg, -⟩
      rw [hnone] at hg
      cases hg
    have hmade := hunmade w.registry.nextEntry (Nat.le_refl _)
    refine ⟨fun e => ?_, fun e he => ?_, fun e he => absurd he.1 (hfree e),
      fun e he => absurd he.1 (hfree e)⟩
    · rcases eq_or_ne e w.registry.nextEntry with rfl | hne
      · simp [World.modifyRegistry, Registry.lead, hmade, Registry.empty]
      · simp [World.modifyRegistry, Registry.lead, hne]
    · rcases eq_or_ne e w.registry.nextEntry with rfl | hne
      · exact .inr ⟨⟨_, rfl, rfl⟩, rfl⟩
      · exact .inl (by simpa [World.modifyRegistry, Registry.lead, hne] using he)
  | @setEntry st ops g hpc hg =>
    rw [hpc] at hok
    obtain ⟨hst, hnotifies, -⟩ := hok
    refine ⟨fun e => ?_, fun e he => ?_, fun e he => ?_, fun e he => .inl ⟨he.1, hnotifies⟩⟩
    · rcases eq_or_ne e g.entry with rfl | hne
      · simp [World.modifyRegistry, Registry.setState]
      · simp [World.modifyRegistry, Registry.setState, hne]
    · rcases eq_or_ne e g.entry with rfl | hne
      · simp [World.modifyRegistry, Registry.setState, hst] at he
      · exact .inl (by simpa [World.modifyRegistry, Registry.setState, hne] using he)
    · obtain ⟨⟨g', hg', rfl⟩, -⟩ := he
      obtain rfl := Option.some.inj (hg.symm.trans hg')
      exact .inr (by simpa [World.modifyRegistry, Registry.setState] using hst)
  | @notifyEntry ops g hpc hg =>
    rw [hpc] at hok
    refine ⟨fun e => ?_, fun e he => .inl ?_, fun e he => .inl ⟨he.1, ?_⟩, fun e he => .inr ?_⟩
    · rcases eq_or_ne e g.entry with rfl | hne
      · simp [World.modifyRegistry, Registry.notify]
      · simp [World.modifyRegistry, Registry.notify, hne]
    · rcases eq_or_ne e g.entry with rfl | hne
      · simpa [World.modifyRegistry, Registry.notify] using he
      · simpa [World.modifyRegistry, Registry.notify, hne] using he
    · have hd := he.2
      rw [hpc] at hd
      exact hd
    · obtain ⟨⟨g', hg', rfl⟩, -⟩ := he
      obtain rfl := Option.some.inj (hg.symm.trans hg')
      simp [World.modifyRegistry, Registry.notify]
  | @unregister ops g hpc hg =>
    rw [hpc] at hok
    refine ⟨fun e => Nat.le_refl _, fun e he => .inl he, fun e he => ?_, fun e he => ?_⟩
    · have hd := he.2
      rw [hpc] at hd
      exact absurd (hok.1.symm.trans hd) Bool.false_ne_true
    · have hd := he.2
      rw [hpc] at hd
      exact absurd (hok.2.1.symm.trans hd) Bool.false_ne_true
  | unguarded hpc _ hg =>
    refine ⟨fun e => Nat.le_refl _, fun e he => .inl he, fun e he => ?_, fun e he => ?_⟩ <;>
    · obtain ⟨⟨g, hg', -⟩, -⟩ := he
      rw [hg] at hg'
      cases hg'
  | restart hpc _ =>
    rw [hpc] at hok
    obtain rfl := hok
    exact idle rfl rfl (by rw [hpc]; rfl) (by rw [hpc]; rfl)
  | touchInput hpc _ ht | touchInterned hpc _ _ ht =>
    exact idle ht.same.registry ht.guard.1 (by rw [hpc]; rfl) (by rw [hpc]; rfl)
  | sharedMiss hpc hlook _ =>
    refine idle ?_ rfl (by rw [hpc]; rfl) (by rw [hpc]; rfl)
    rcases hlook with rfl | rfl <;> rfl
  | overtaken hpc =>
    refine idle rfl rfl ?_ ?_ <;> rcases hpc with hpc | hpc <;> rw [hpc] <;> rfl
  | @finalize prev out deps hpc =>
    refine .kept rfl rfl (fun _ => ?_) fun _ => ?_ <;> cases out <;> rfl
  | readInput hpc _ | readInterned hpc _ _ | readMissing hpc _ _ | readCycle hpc _ _ =>
    exact .kept rfl rfl (fun _ => rfl) fun _ => rfl
  | updateDeps hpc | setCell hpc | notifyCell hpc | putShared hpc =>
    refine .kept rfl rfl (fun h => ?_) fun h => ?_ <;>
    · rw [hpc] at h
      exact h
  | top hpc | listen hpc | hit hpc _ _ | stale hpc _ _ | poison hpc _ | retry hpc _ | park hpc _
  | wake hpc _ | accept hpc | unregistered hpc _ | touchMissing hpc _ _ | touchCycle hpc _ _
  | reverify hpc _ | start hpc _ | sharedHit hpc _ _ | sharedStale hpc _ _ | follow hpc _
  | followReset hpc | followListen hpc | followPark hpc | followDone hpc _ | followFailed hpc _
  | followCancelled hpc | followWake hpc =>
    exact idle rfl rfl (by rw [hpc]; rfl) (by rw [hpc]; rfl)

/-- Straight-line parts stay well formed. -/
theorem ActStep.entryOk (h : ActStep S w view task below a w' (.goto a')) (hok : a.pc.EntryOk) :
    a'.pc.EntryOk := by
  cases h with
  | touchInput _ _ ht | touchInterned _ _ _ ht => exact ht.entry.1
  | accept _ | unregistered _ _ => exact entryOk_afterRevalidation ..
  | finalize _ => exact entryOps_finalizeOps ..
  | setEntry hpc _ | unregister hpc _ =>
    rw [hpc] at hok
    exact hok.2.2
  | notifyEntry hpc _ =>
    rw [hpc] at hok
    exact hok.2
  | updateDeps hpc | setCell hpc | notifyCell hpc | putShared hpc =>
    rw [hpc] at hok
    exact hok
  | @unguarded op ops hpc hop _ =>
    rw [hpc] at hok
    rcases hop with ⟨st, rfl⟩ | rfl | rfl
    · exact hok.2.2
    · exact hok.2
    · exact hok.2.2
  | hit _ _ _ | poison _ _ | touchMissing _ _ _ | touchCycle _ _ _ | reverify _ _ => rfl
  | sharedHit _ _ _ | followDone _ _ | followFailed _ _ => rfl
  | _ => trivial

/-- What an access has seen of an entry when it parks on it. -/
theorem ActStep.followed (h : ActStep S w view task below a w' (.goto a')) {e : EntryId} {n : Nat}
    (hseen : ∀ n, a.pc.followed = some (e, n) → n ≤ (w.registry.entries e).epoch)
    (hpc : a'.pc.followed = some (e, n)) : n ≤ (w.registry.entries e).epoch := by
  cases h with
  | touchInput _ _ ht | touchInterned _ _ _ ht =>
    rw [ht.entry.2] at hpc
    cases hpc
  | accept _ | unregistered _ _ =>
    rw [Activation.moveTo, followed_afterRevalidation] at hpc
    cases hpc
  | followListen _ =>
    cases hpc
    exact Nat.le_refl _
  | followPark hop => exact hseen n (by rw [hop]; exact hpc)
  | _ => cases hpc

/-- An access parks on an entry only while its computation runs. -/
theorem parks_on_running {e : EntryId} {n : Nat}
    (h : stepActivation S w view task below a = some (w', .goto a'))
    (hpc : a'.pc = .followParked e n) :
    w' = w ∧ (w.registry.entries e).state.isOver = false := by
  have hact : ActStep S w view task below a w' (.goto a') := actStep_of_step h
  cases hact with
  | followPark hop =>
    obtain ⟨rfl, rfl⟩ := Pc.followParked.inj hpc
    simp only [stepActivation, hop] at h
    split at h
    · next hs => exact ⟨rfl, by rw [hs]; rfl⟩
    all_goals cases h
  | touchInput _ _ ht | touchInterned _ _ _ ht =>
    have hnone := ht.entry.2
    rw [hpc] at hnone
    cases hnone
  | accept _ | unregistered _ _ =>
    have hnone := congrArg Pc.followed hpc
    rw [Activation.moveTo, followed_afterRevalidation] at hnone
    cases hnone
  | _ => cases hpc

/-- A nested access leaves its caller owing what it owed. -/
theorem ActStep.call_entry {child : DynKey}
    (h : ActStep S w view task below a w' (.call a' child)) :
    w' = w ∧ a'.pc.EntryOk ∧ a'.pc.followed = none ∧ a'.guard = a.guard ∧
      (a.pc.decides = true → a'.pc.decides = true) ∧
        (a.pc.attends = true → a'.pc.attends = true) := by
  cases h with
  | touchCall hpc _ _ =>
    refine ⟨rfl, trivial, rfl, rfl, fun h => ?_, fun h => ?_⟩ <;>
    · rw [hpc] at h
      cases h
  | readCall hpc _ _ => exact ⟨rfl, trivial, rfl, rfl, fun _ => rfl, fun _ => rfl⟩

/-- An activation that returns owes nothing. -/
theorem ActStep.ret_entry {r : AccessResult V} (h : ActStep S w view task below a w' (.ret r))
    (hok : a.pc.EntryOk) : w' = w ∧ a.pc.decides = false ∧ a.pc.attends = false := by
  cases h with
  | «return» hpc _ | raise hpc =>
    rw [hpc] at hok ⊢
    obtain rfl := hok
    exact ⟨rfl, rfl, rfl⟩

omit [DecidableEq V] in
/-- Who goes on with the result of a nested access owes what it owed. -/
theorem Resumed.entry {p p' : Activation V} {r : AccessResult V} (h : Resumed w view p r w' p')
    (hok : p.pc.EntryOk) :
    p'.pc.EntryOk ∧ (p'.pc.followed = none ∨ p' = p) ∧ EntryEffect w w' p p' := by
  cases h with
  | touched hpc ht =>
    refine ⟨ht.entry.1, .inl ht.entry.2,
      .kept ht.same.registry ht.guard.1 (fun h => ?_) fun h => ?_⟩ <;>
    · rw [hpc] at h
      cases h
  | answered _ => exact ⟨trivial, .inl rfl, .kept rfl rfl (fun _ => rfl) fun _ => rfl⟩
  | idle _ => exact ⟨hok, .inr rfl, .kept rfl rfl id id⟩

end steps

/-! ## 3. The invariant -/

/-- A running entry has a leader that will set its state, and an access parked on an entry has a
leader that will notify it. -/
structure Attended (c : Config V) : Prop where
  ok : ∀ t, ∀ a ∈ (c.tasks t).stack, a.pc.EntryOk
  seen : ∀ t, ∀ a ∈ (c.tasks t).stack, ∀ e n, a.pc.followed = some (e, n) →
    n ≤ (c.world.registry.entries e).epoch
  running : ∀ e, (c.world.registry.entries e).state.isOver = false →
    ∃ t, ∃ b ∈ (c.tasks t).stack, b.Decides e
  parked : ∀ t, ∀ a ∈ (c.tasks t).stack, ∀ e,
    a.pc = .followParked e (c.world.registry.entries e).epoch →
      ∃ u, ∃ b ∈ (c.tasks u).stack, b.Attends e

theorem attended_init : Attended (init : Config V) where
  ok _ _ h := absurd h List.not_mem_nil
  seen _ _ h := absurd h List.not_mem_nil
  running e h := by cases h
  parked _ _ h := absurd h List.not_mem_nil

/-- **One task changes its stack**, and the entries change with it. -/
theorem Attended.restacked {c : Config V} (h : Attended c) {t : TaskId} {task : Task V}
    {w : World V} (hok : ∀ b ∈ task.stack, b.pc.EntryOk)
    (hepoch : ∀ e, (c.world.registry.entries e).epoch ≤ (w.registry.entries e).epoch)
    (hseen : ∀ b ∈ task.stack, ∀ e n, b.pc.followed = some (e, n) →
      n ≤ (w.registry.entries e).epoch)
    (hrunning : ∀ e, (w.registry.entries e).state.isOver = false →
      (c.world.registry.entries e).state.isOver = false ∨ ∃ b ∈ task.stack, b.Decides e)
    (hdecides : ∀ e, ∀ b ∈ (c.tasks t).stack, b.Decides e →
      (∃ b' ∈ task.stack, b'.Decides e) ∨ (w.registry.entries e).state.isOver = true)
    (hattends : ∀ e, ∀ b ∈ (c.tasks t).stack, b.Attends e → (∃ b' ∈ task.stack, b'.Attends e) ∨
      (c.world.registry.entries e).epoch < (w.registry.entries e).epoch)
    (hparked : ∀ b ∈ task.stack, ∀ e n, b.pc = .followParked e n →
      b ∈ (c.tasks t).stack ∨ (w.registry.entries e).state.isOver = false) :
    Attended ({ c with world := w }.setTask t task) := by
  have hstack : ∀ u, (({ c with world := w } : Config V).setTask t task).tasks u =
      if u = t then task else c.tasks u := by
    intro u
    by_cases hu : u = t
    · subst hu
      simp [setTask]
    · simp [setTask, hu]
  have hown : ∀ {P : Activation V → Prop}, (∃ b ∈ task.stack, P b) →
      ∃ u, ∃ b ∈ ((({ c with world := w } : Config V).setTask t task).tasks u).stack, P b := by
    rintro P ⟨b, hb, hP⟩
    exact ⟨t, b, by rw [hstack, if_pos rfl]; exact hb, hP⟩
  have hother : ∀ {P : Activation V → Prop} {u b}, u ≠ t → b ∈ (c.tasks u).stack → P b →
      ∃ u, ∃ b ∈ ((({ c with world := w } : Config V).setTask t task).tasks u).stack, P b := by
    intro P u b hu hb hP
    exact ⟨u, b, by rw [hstack, if_neg hu]; exact hb, hP⟩
  have hrun : ∀ e, (w.registry.entries e).state.isOver = false →
      ∃ u, ∃ b ∈ ((({ c with world := w } : Config V).setTask t task).tasks u).stack,
        b.Decides e := by
    intro e he
    rcases hrunning e he with hold | hnew
    · obtain ⟨u, b, hb, hd⟩ := h.running e hold
      by_cases hu : u = t
      · subst hu
        rcases hdecides e b hb hd with hnew | hover
        · exact hown hnew
        · exact absurd (he.symm.trans hover) Bool.false_ne_true
      · exact hother hu hb hd
    · exact hown hnew
  have hallok : ∀ u, ∀ b ∈ ((({ c with world := w } : Config V).setTask t task).tasks u).stack,
      b.pc.EntryOk := by
    intro u b hb
    rw [hstack] at hb
    split at hb
    · exact hok b hb
    · exact h.ok u b hb
  have hold : ∀ {u b e}, b ∈ (c.tasks u).stack →
      b.pc = .followParked e (w.registry.entries e).epoch →
      ∃ u, ∃ b ∈ ((({ c with world := w } : Config V).setTask t task).tasks u).stack,
        b.Attends e := by
    intro u b e hb hpc
    -- it has seen every notification, so there was none
    have hle := h.seen u b hb e _ (by rw [hpc]; rfl)
    have heq := Nat.le_antisymm (hepoch e) hle
    obtain ⟨u', b', hb', ha⟩ := h.parked u b hb e (heq ▸ hpc)
    by_cases hu : u' = t
    · subst hu
      rcases hattends e b' hb' ha with hnew | hlt
      · exact hown hnew
      · exact absurd (heq ▸ hlt) (Nat.lt_irrefl _)
    · exact hother hu hb' ha
  refine ⟨hallok, fun u b hb e n hn => ?_, hrun, fun u b hb e hpc => ?_⟩
  · rw [hstack] at hb
    split at hb
    · exact hseen b hb e n hn
    · exact Nat.le_trans (h.seen u b hb e n hn) (hepoch e)
  · rw [hstack] at hb
    split at hb
    · rcases hparked b hb e _ hpc with hb | hover
      · exact hold hb hpc
      · obtain ⟨u', b', hb', hd⟩ := hrun e hover
        exact ⟨u', b', hb', hd.attends (hallok u' b' hb')⟩
    · exact hold hb hpc

section runs

variable [DecidableEq V] {S : Schema V} {c c' : Config V} {t : TaskId}

/-- A step of a task. -/
theorem Attended.stepTask (h : Attended c) (hled : Led c) (hs : Config.stepTask S c t = some c') :
    Attended c' := by
  unfold Config.stepTask at hs
  cases hst : (c.tasks t).stack with
  | nil => simp [hst] at hs
  | cons a below =>
    have hmem : ∀ b ∈ a :: below, b ∈ (c.tasks t).stack := fun b hb => hst ▸ hb
    have hok := h.ok t a (hmem a (List.mem_cons_self ..))
    have hbelow : ∀ b ∈ below, b ∈ (c.tasks t).stack := fun b hb =>
      hmem b (List.mem_cons_of_mem _ hb)
    have hguard := hled.guards t _ a (act_top hst)
    simp only [hst] at hs
    cases hm : stepActivation S c.world (c.tasks t).view t below a with
    | none => simp [hm] at hs
    | some m =>
      obtain ⟨w, mv⟩ := m
      have hact : ActStep S c.world (c.tasks t).view t below a w mv := actStep_of_step hm
      simp only [hm, Option.some.injEq] at hs
      subst hs
      cases mv with
      | goto a' =>
        have he := hact.entryEffect hok hguard hled.unmade
        refine h.restacked (List.forall_mem_cons.mpr ⟨hact.entryOk hok, fun b hb =>
          h.ok t b (hbelow b hb)⟩) he.epoch (fun b hb e n hn => ?_) (fun e hover => ?_)
          (fun e b hb hd => ?_) (fun e b hb ha => ?_) fun b hb e n hpc => ?_
        · rcases List.mem_cons.mp hb with rfl | hb
          · exact Nat.le_trans (hact.followed (h.seen t a (hmem a (List.mem_cons_self ..)) e) hn)
              (he.epoch e)
          · exact Nat.le_trans (h.seen t b (hbelow b hb) e n hn) (he.epoch e)
        · exact (he.running e hover).imp id fun hd => ⟨a', List.mem_cons_self .., hd⟩
        · rw [hst] at hb
          rcases List.mem_cons.mp hb with rfl | hb
          · exact (he.decides e hd).imp (fun hd => ⟨a', List.mem_cons_self .., hd⟩) id
          · exact .inl ⟨b, List.mem_cons_of_mem _ hb, hd⟩
        · rw [hst] at hb
          rcases List.mem_cons.mp hb with rfl | hb
          · exact (he.attends e ha).imp (fun ha => ⟨a', List.mem_cons_self .., ha⟩) id
          · exact .inl ⟨b, List.mem_cons_of_mem _ hb, ha⟩
        · rcases List.mem_cons.mp hb with rfl | hb
          · obtain ⟨rfl, hover⟩ := parks_on_running hm hpc
            exact .inr hover
          · exact .inl (hbelow b hb)
      | call a' child =>
        obtain ⟨rfl, hok', hnone, hg, hdecides, hattends⟩ := hact.call_entry
        have hnever : ∀ {e n}, a'.pc.followed ≠ some (e, n) := fun hn => by
          rw [hnone] at hn
          cases hn
        refine h.restacked (w := c.world) (List.forall_mem_cons.mpr ⟨trivial,
          List.forall_mem_cons.mpr ⟨hok', fun b hb => h.ok t b (hbelow b hb)⟩⟩)
          (fun e => Nat.le_refl _) (fun b hb e n hn => ?_) (fun e hover => .inl hover)
          (fun e b hb hd => .inl ?_) (fun e b hb ha => .inl ?_) fun b hb e n hpc => .inl ?_
        · rcases List.mem_cons.mp hb with rfl | hb
          · cases hn
          · rcases List.mem_cons.mp hb with rfl | hb
            · exact absurd hn hnever
            · exact h.seen t b (hbelow b hb) e n hn
        · rw [hst] at hb
          rcases List.mem_cons.mp hb with rfl | hb
          · exact ⟨a', by simp, by simpa [Activation.Leads, hg] using hd.1, hdecides hd.2⟩
          · exact ⟨b, by simp [hb], hd⟩
        · rw [hst] at hb
          rcases List.mem_cons.mp hb with rfl | hb
          · exact ⟨a', by simp, by simpa [Activation.Leads, hg] using ha.1, hattends ha.2⟩
          · exact ⟨b, by simp [hb], ha⟩
        · rcases List.mem_cons.mp hb with rfl | hb
          · cases hpc
          · rcases List.mem_cons.mp hb with rfl | hb
            · exact absurd (by rw [hpc]; rfl) hnever
            · exact hbelow b hb
      | ret r =>
        obtain ⟨rfl, hdecides, hattends⟩ := hact.ret_entry hok
        have hkeep : ∀ {P : Activation V → Prop}, ¬ P a → ∀ b ∈ a :: below, P b →
            ∃ b ∈ below, P b := by
          intro P ha b hb hP
          rcases List.mem_cons.mp hb with rfl | hb
          · exact absurd hP ha
          · exact ⟨b, hb, hP⟩
        have hfree : ∀ e, ¬ a.Decides e ∧ ¬ a.Attends e := fun e =>
          ⟨fun hd => Bool.false_ne_true (hdecides.symm.trans hd.2),
            fun ha => Bool.false_ne_true (hattends.symm.trans ha.2)⟩
        cases below with
        | nil =>
          refine h.restacked (w := c.world) (fun b hb => absurd hb List.not_mem_nil)
            (fun e => Nat.le_refl _) (fun b hb => absurd hb List.not_mem_nil)
            (fun e hover => .inl hover) (fun e b hb hd => .inl ?_) (fun e b hb ha => .inl ?_)
            fun b hb => absurd hb List.not_mem_nil
          · exact hkeep (hfree e).1 b (hst ▸ hb) hd
          · exact hkeep (hfree e).2 b (hst ▸ hb) ha
        | cons p below =>
          have hp := resumed_cases c.world (c.tasks t).view p r
          show Attended ({ c with world := (resume c.world (c.tasks t).view p r).1 }.setTask t
            { c.tasks t with stack := (resume c.world (c.tasks t).view p r).2 :: below })
          generalize resume c.world (c.tasks t).view p r = x at hp ⊢
          obtain ⟨w', p'⟩ := x
          obtain ⟨hok', hfollowed, he⟩ := hp.entry (h.ok t p (hbelow p (List.mem_cons_self ..)))
          have hrest : ∀ b ∈ below, b ∈ (c.tasks t).stack := fun b hb =>
            hbelow b (List.mem_cons_of_mem _ hb)
          refine h.restacked (List.forall_mem_cons.mpr ⟨hok', fun b hb => h.ok t b (hrest b hb)⟩)
            he.epoch (fun b hb e n hn => ?_) (fun e hover => ?_) (fun e b hb hd => ?_)
            (fun e b hb ha => ?_) fun b hb e n hpc => .inl ?_
          · rcases List.mem_cons.mp hb with rfl | hb
            · rcases hfollowed with hnone | heq
              · rw [hnone] at hn
                cases hn
              · exact Nat.le_trans (h.seen t p (hbelow p (List.mem_cons_self ..)) e n (heq ▸ hn))
                  (he.epoch e)
            · exact Nat.le_trans (h.seen t b (hrest b hb) e n hn) (he.epoch e)
          · exact (he.running e hover).imp id fun hd => ⟨_, List.mem_cons_self .., hd⟩
          · obtain ⟨b, hb, hd⟩ := hkeep (hfree e).1 b (hst ▸ hb) hd
            rcases List.mem_cons.mp hb with rfl | hb
            · exact (he.decides e hd).imp (fun hd => ⟨_, List.mem_cons_self .., hd⟩) id
            · exact .inl ⟨b, List.mem_cons_of_mem _ hb, hd⟩
          · obtain ⟨b, hb, ha⟩ := hkeep (hfree e).2 b (hst ▸ hb) ha
            rcases List.mem_cons.mp hb with rfl | hb
            · exact (he.attends e ha).imp (fun ha => ⟨_, List.mem_cons_self .., ha⟩) id
            · exact .inl ⟨b, List.mem_cons_of_mem _ hb, ha⟩
          · rcases List.mem_cons.mp hb with rfl | hb
            · rcases hfollowed with hnone | heq
              · have hsome := congrArg Pc.followed hpc
                rw [hnone] at hsome
                cases hsome
              · obtain rfl : b = p := heq
                exact hbelow b (List.mem_cons_self ..)
            · exact hrest b hb

omit [DecidableEq V] in
/-- Dropping guards ends the computations of the entries they are for, and wakes the followers. -/
theorem entries_cancelGuards (w : World V) (stack : List (Activation V)) (e : EntryId) :
    (w.registry.entries e).epoch ≤ ((cancelGuards w stack).registry.entries e).epoch ∧
      (((cancelGuards w stack).registry.entries e).state.isOver = false →
        (w.registry.entries e).state.isOver = false) ∧
      ((∃ b ∈ stack, b.Leads e) →
        ((cancelGuards w stack).registry.entries e).state.isOver = true ∧
          (w.registry.entries e).epoch < ((cancelGuards w stack).registry.entries e).epoch) := by
  induction stack generalizing w with
  | nil =>
    refine ⟨Nat.le_refl _, id, ?_⟩
    rintro ⟨b, hb, -⟩
    cases hb
  | cons a stack ih =>
    unfold cancelGuards
    cases hg : a.guard with
    | none =>
      obtain ⟨hepoch, hover, hstack⟩ := ih w
      refine ⟨hepoch, hover, ?_⟩
      rintro ⟨b, hb, hlead⟩
      refine hstack ?_
      rcases List.mem_cons.mp hb with rfl | hb
      · obtain ⟨g, hg', -⟩ := hlead
        rw [hg] at hg'
        cases hg'
      · exact ⟨b, hb, hlead⟩
    | some g =>
      obtain ⟨hepoch, hover, hstack⟩ := ih (w.modifyRegistry (·.cancel g))
      by_cases he : e = g.entry
      · subst he
        have hcancelled : ((w.modifyRegistry (·.cancel g)).registry.entries g.entry).state.isOver =
            true ∧ ((w.modifyRegistry (·.cancel g)).registry.entries g.entry).epoch =
              (w.registry.entries g.entry).epoch + 1 := by
          simp [World.modifyRegistry, Registry.cancel, Registry.remove, Registry.notify,
            Registry.setState, InFlightState.isOver]
        have hover' : ((cancelGuards (w.modifyRegistry (·.cancel g)) stack).registry.entries
            g.entry).state.isOver = true := by
          by_contra hrunning
          have := hover (Bool.not_eq_true _ ▸ hrunning)
          rw [hcancelled.1] at this
          cases this
        rw [hcancelled.2] at hepoch
        refine ⟨Nat.le_of_succ_le hepoch, fun h => ?_, fun _ => ⟨hover', hepoch⟩⟩
        rw [hover'] at h
        cases h
      · have hsame : (w.modifyRegistry (·.cancel g)).registry.entries e = w.registry.entries e := by
          simp [World.modifyRegistry, Registry.cancel, Registry.remove, Registry.notify,
            Registry.setState, he]
        rw [hsame] at hepoch hover hstack
        refine ⟨hepoch, hover, ?_⟩
        rintro ⟨b, hb, hlead⟩
        refine hstack ?_
        rcases List.mem_cons.mp hb with rfl | hb
        · obtain ⟨g', hg', heq⟩ := hlead
          obtain rfl := Option.some.inj (hg.symm.trans hg')
          exact absurd heq.symm he
        · exact ⟨b, hb, hlead⟩

omit [DecidableEq V] in
/-- A task is dropped. -/
theorem Attended.dropTask (h : Attended c) (hs : Config.dropTask c t = some c') : Attended c' := by
  unfold Config.dropTask at hs
  cases hst : (c.tasks t).stack with
  | nil => simp [hst] at hs
  | cons a below =>
    simp only [hst] at hs
    split at hs
    · cases hs
      refine h.restacked (fun b hb => absurd hb List.not_mem_nil)
        (fun e => (entries_cancelGuards c.world (a :: below) e).1)
        (fun b hb => absurd hb List.not_mem_nil)
        (fun e hover => .inl ((entries_cancelGuards c.world (a :: below) e).2.1 hover))
        (fun e b hb hd => .inr ?_) (fun e b hb ha => .inr ?_)
        fun b hb => absurd hb List.not_mem_nil
      · exact ((entries_cancelGuards c.world (a :: below) e).2.2 ⟨b, hst ▸ hb, hd.1⟩).1
      · exact ((entries_cancelGuards c.world (a :: below) e).2.2 ⟨b, hst ▸ hb, ha.1⟩).2
    · cases hs

omit [DecidableEq V] in
/-- Nothing happens to the tasks and to the registry. -/
theorem Attended.framed (h : Attended c) (w : World V) (ms : List (Mutator V))
    (hw : w.registry = c.world.registry) : Attended { c with world := w, mutators := ms } where
  ok := h.ok
  seen t a ha e n hn := hw ▸ h.seen t a ha e n hn
  running e hover := h.running e (hw ▸ hover)
  parked t a ha e hpc := h.parked t a ha e (hw ▸ hpc)

/-- **Every step keeps the entries attended.** -/
theorem attended_step {l : Label V} (h : Attended c) (hled : Led c) (hs : step S c l = some c') :
    Attended c' := by
  cases l with
  | spawn view key want =>
    simp only [step] at hs
    split at hs
    · cases hs
      have hnew : (c.tasks c.taskCount).stack = [] := hled.unused _ (Nat.le_refl _)
      have hfree : ∀ b ∈ (c.tasks c.taskCount).stack, False := by simp [hnew]
      have hspawned : Attended ({ c with world := c.world }.setTask c.taskCount
          ⟨view, key, want, [.enter key], none⟩) := h.restacked
        (fun b hb => List.mem_singleton.mp hb ▸ trivial) (fun e => Nat.le_refl _)
        (fun b hb e n hn => by
          rw [List.mem_singleton.mp hb] at hn
          cases hn)
        (fun e hover => .inl hover) (fun e b hb _ => (hfree b hb).elim)
        (fun e b hb _ => (hfree b hb).elim)
        (fun b hb e n hpc => by
          rw [List.mem_singleton.mp hb] at hpc
          cases hpc)
      exact ⟨hspawned.ok, hspawned.seen, hspawned.running, hspawned.parked⟩
    · cases hs
  | step t => exact h.stepTask hled hs
  | drop t => exact h.dropTask hs
  | _ =>
    obtain ⟨w, ms, rfl, hw⟩ := framed_of_operation rfl hs
    exact h.framed w ms hw

/-- Whatever steps a run takes, its entries are attended. -/
theorem attended_run {ok : Config V → Label V → Config V → Prop} {ls : List (Label V)}
    (hrun : Trans.Steps (step S) ok init ls c) : Attended c ∧ Led c :=
  hrun.invariant (I := fun m => Attended m ∧ Led m) ⟨attended_init, led_init⟩
    fun _ _ _ hm hl _ => ⟨attended_step hm.1 hm.2 hl, led_step hm.2 hl⟩

/-- **A running entry has a live access that leads it and will set its state, and an access parked
on an entry that has not been notified since has a live access that leads the entry and will notify
it**, in every state that any interleaving reaches, whichever tasks are dropped on the way and
whatever fails. -/
theorem entries_are_attended {ls : List (Label V)} (h : Trans.run (step S) init ls = some c) :
    (∀ e, (c.world.registry.entries e).state.isOver = false →
      ∃ t, ∃ b ∈ (c.tasks t).stack, b.Decides e) ∧
    ∀ t, ∀ a ∈ (c.tasks t).stack, ∀ e,
      a.pc = .followParked e (c.world.registry.entries e).epoch →
        ∃ u, ∃ b ∈ (c.tasks u).stack, b.Attends e := by
  obtain ⟨hattended, -⟩ := attended_run (Trans.Steps.of_run h)
  exact ⟨hattended.running, hattended.parked⟩

end runs

namespace Cancellation

/-- A snapshot is made while `nested` is computed on the database, and an access to `nested` on the
snapshot follows. -/
def follower : List (Label Nat) :=
  leader ++ [.snapshot, .spawn 1 nested true] ++ List.replicate 9 (.step 1)

/-- The task is parked on entry 0. -/
def parkedOnFirst (c : Config Nat) (t : TaskId) : Bool :=
  (c.tasks t).stack.any fun a =>
    match a.pc with
    | .followParked e seen => e == 0 && seen == (c.world.registry.entries 0).epoch
    | _ => false

end Cancellation

open Cancellation in
/-- The access on the snapshot has a leader. -/
theorem follower_is_attended :
    ∃ c, Trans.run (step schema) init follower = some c ∧
      (∃ a ∈ (c.tasks 1).stack, a.pc = .followParked 0 (c.world.registry.entries 0).epoch) ∧
      ∃ u, ∃ b ∈ (c.tasks u).stack, b.Attends 0 := by
  have hrun : (Trans.run (step schema) init follower).any (parkedOnFirst · 1) := by
    decide +kernel
  obtain ⟨c, hc, hparked⟩ := (Option.any_eq_true ..).mp hrun
  obtain ⟨a, ha, hpc⟩ := List.any_eq_true.mp hparked
  have hpc' : a.pc = .followParked 0 (c.world.registry.entries 0).epoch := by
    split at hpc
    · next e seen hop =>
      obtain ⟨he, hseen⟩ := Bool.and_eq_true_iff.mp hpc
      rw [hop, beq_iff_eq.mp he, beq_iff_eq.mp hseen]
    · cases hpc
  exact ⟨c, hc, ⟨a, ha, hpc'⟩, (entries_are_attended hc).2 1 a ha 0 hpc'⟩

end Picante

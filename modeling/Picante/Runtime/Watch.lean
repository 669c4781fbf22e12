/-
# The revision channel under concurrent bumps

`bump_revision` from any number of threads.  A call increments the counter, puts the revision it has
got into the watch channel, and sends an event; each of these is one step.  Subscribers read the
channel only.

* `channel_keeps_up` -- the channel never goes back, and holds the current revision when all calls
  have returned, if the calls put their revisions into the channel in the order in which they have
  got them.  In a run that ends with all calls returned and in which the channel never goes back,
  they did.
* `channel_goes_back` -- two calls that do not.
-/
import Picante.Runtime.Invalidation
import Picante.Trans.Run

namespace Picante

namespace Watch

abbrev ThreadId := Nat

/-! ## 1. Threads -/

/-- Where a thread is in `bump_revision`. -/
inductive Pc where
  | idle
  /-- about to increment the counter -/
  | fetchAdd
  /-- about to put its revision into the channel -/
  | sendReplace (rev : Revision)
  /-- about to send the event -/
  | send (rev : Revision)
  | returned (rev : Revision)
  deriving DecidableEq, Repr

/-- The counter, the watch channel, the events that were sent, and the threads. -/
structure State where
  currentRevision : Revision
  channel : Revision
  events : List RuntimeEvent
  threads : ThreadId → Pc

inductive Label where
  | call (t : ThreadId)
  | step (t : ThreadId)
  deriving DecidableEq, Repr

namespace State

/-- A runtime at revision `r`, as it is when it is new or a revision was set. -/
def start (r : Revision) : State := ⟨r, r, [], fun _ => .idle⟩

def goto (s : State) (t : ThreadId) (pc : Pc) : State :=
  { s with threads := Function.update s.threads t pc }

/-- One step. -/
def step (s : State) : Label → Option State
  | .call t =>
    match s.threads t with
    | .idle | .returned _ => some (s.goto t .fetchAdd)
    | _ => none
  | .step t =>
    match s.threads t with
    | .fetchAdd =>
      let next := s.currentRevision + 1
      some { s.goto t (.sendReplace next) with currentRevision := next }
    | .sendReplace rev => some { s.goto t (.send rev) with channel := rev }
    | .send rev =>
      some { s.goto t (.returned rev) with events := s.events ++ [.revisionBumped rev] }
    | _ => none

/-- All calls have returned. -/
def Quiet (s : State) : Prop := ∀ t, s.threads t = .idle ∨ ∃ rev, s.threads t = .returned rev

/-- **The step is in turn**: no call that has got an earlier revision is still to put it into the
channel. -/
def InTurn (s : State) : Label → Prop
  | .step t => ∀ rev, s.threads t = .sendReplace rev →
      ∀ t' rev', s.threads t' = .sendReplace rev' → rev ≤ rev'
  | .call _ => True

theorem threads_goto (s : State) (t : ThreadId) (pc : Pc) (t' : ThreadId) :
    (s.goto t pc).threads t' = if t' = t then pc else s.threads t' :=
  Function.update_apply ..

end State

/-! ## 2. Revisions on their way -/

/-- What a step does. -/
inductive Step (s : State) : Label → State → Prop where
  | call {t : ThreadId} (hpc : s.threads t = .idle ∨ ∃ rev, s.threads t = .returned rev) :
      Step s (.call t) (s.goto t .fetchAdd)
  | fetchAdd {t : ThreadId} (hpc : s.threads t = .fetchAdd) :
      Step s (.step t) { s.goto t (.sendReplace (s.currentRevision + 1)) with
        currentRevision := s.currentRevision + 1 }
  | sendReplace {t : ThreadId} {rev : Revision} (hpc : s.threads t = .sendReplace rev) :
      Step s (.step t) { s.goto t (.send rev) with channel := rev }
  | send {t : ThreadId} {rev : Revision} (hpc : s.threads t = .send rev) :
      Step s (.step t)
        { s.goto t (.returned rev) with events := s.events ++ [.revisionBumped rev] }

theorem step_cases {s s' : State} {l : Label} (h : s.step l = some s') : Step s l s' := by
  cases l with
  | call t =>
    simp only [State.step] at h
    split at h <;> cases h
    · next hpc => exact .call (.inl hpc)
    · next rev hpc => exact .call (.inr ⟨rev, hpc⟩)
  | step t =>
    simp only [State.step] at h
    split at h <;> cases h
    · next hpc => exact .fetchAdd hpc
    · next hpc => exact .sendReplace hpc
    · next hpc => exact .send hpc

/-- The revisions that the channel has not had are those on their way to it, one in each call. -/
structure OnTheirWay (s : State) : Prop where
  le : s.channel ≤ s.currentRevision
  bounds : ∀ t rev, s.threads t = .sendReplace rev → s.channel < rev ∧ rev ≤ s.currentRevision
  own : ∀ t t' rev, s.threads t = .sendReplace rev → s.threads t' = .sendReplace rev → t = t'
  sent : ∀ rev, s.channel < rev → rev ≤ s.currentRevision → ∃ t, s.threads t = .sendReplace rev

section steps

variable {s s' : State} {l : Label} {t : ThreadId}

theorem onTheirWay_start (r : Revision) : OnTheirWay (.start r) where
  le := Nat.le_refl r
  bounds _ _ h := nomatch h
  own _ _ _ h := nomatch h
  sent _ h h' := absurd h (Nat.not_lt_of_le h')

/-- A thread goes on that has no revision on its way, before or after. -/
theorem OnTheirWay.goto (h : OnTheirWay s) (pc : Pc) (hold : ∀ rev, s.threads t ≠ .sendReplace rev)
    (hnew : ∀ rev, pc ≠ .sendReplace rev) (hrev : s'.currentRevision = s.currentRevision)
    (hchannel : s'.channel = s.channel) (hthreads : s'.threads = (s.goto t pc).threads) :
    OnTheirWay s' := by
  have hsame : ∀ t' rev, s'.threads t' = .sendReplace rev ↔ s.threads t' = .sendReplace rev := by
    intro t' rev
    rw [hthreads, State.threads_goto]
    split
    · next ht => exact iff_of_false (hnew rev) (ht ▸ hold rev)
    · rfl
  refine ⟨?_, fun t rev ht => ?_, fun t t' rev ht ht' => ?_, fun rev hlt hle => ?_⟩
  · rw [hchannel, hrev]
    exact h.le
  · rw [hchannel, hrev]
    exact h.bounds t rev ((hsame t rev).mp ht)
  · exact h.own t t' rev ((hsame t rev).mp ht) ((hsame t' rev).mp ht')
  · obtain ⟨t, ht⟩ := h.sent rev (hchannel ▸ hlt) (hrev ▸ hle)
    exact ⟨t, (hsame t rev).mpr ht⟩

/-- The next revision gets on its way. -/
theorem OnTheirWay.fetchAdd (h : OnTheirWay s) (hpc : s.threads t = .fetchAdd) :
    OnTheirWay { s.goto t (.sendReplace (s.currentRevision + 1)) with
      currentRevision := s.currentRevision + 1 } := by
  have hthreads : ∀ t' rev, (s.goto t (.sendReplace (s.currentRevision + 1))).threads t' =
      .sendReplace rev → t' = t ∧ rev = s.currentRevision + 1 ∨
        t' ≠ t ∧ s.threads t' = .sendReplace rev := by
    intro t' rev ht
    rw [State.threads_goto] at ht
    split at ht
    · next heq =>
      cases ht
      exact .inl ⟨heq, rfl⟩
    · next hne => exact .inr ⟨hne, ht⟩
  have hle := h.le
  refine ⟨Nat.le_succ_of_le hle, fun t' rev ht => ?_, fun t₁ t₂ rev h₁ h₂ => ?_,
    fun rev hlt hrev => ?_⟩
  · rcases hthreads t' rev ht with ⟨-, rfl⟩ | ⟨-, ht⟩
    · exact ⟨Nat.lt_succ_of_le hle, Nat.le_refl _⟩
    · obtain ⟨hlt, hrev⟩ := h.bounds t' rev ht
      exact ⟨hlt, Nat.le_succ_of_le hrev⟩
  · -- the new revision is above the others
    have hother : ∀ t', s.threads t' ≠ .sendReplace (s.currentRevision + 1) := fun t' ht =>
      absurd (h.bounds t' _ ht).2 (Nat.not_succ_le_self _)
    rcases hthreads t₁ rev h₁ with ⟨rfl, rfl⟩ | ⟨-, h₁⟩
    · rcases hthreads t₂ _ h₂ with ⟨rfl, -⟩ | ⟨-, h₂⟩
      · rfl
      · exact absurd h₂ (hother t₂)
    · rcases hthreads t₂ rev h₂ with ⟨-, rfl⟩ | ⟨-, h₂⟩
      · exact absurd h₁ (hother t₁)
      · exact h.own t₁ t₂ rev h₁ h₂
  · rcases Nat.lt_or_eq_of_le hrev with hrev | rfl
    · obtain ⟨t', ht'⟩ := h.sent rev hlt (Nat.lt_succ_iff.mp hrev)
      refine ⟨t', ?_⟩
      show (s.goto t _).threads t' = _
      rw [State.threads_goto, if_neg, ht']
      rintro rfl
      rw [hpc] at ht'
      cases ht'
    · exact ⟨t, (State.threads_goto ..).trans (if_pos rfl)⟩

/-- **The earliest revision on its way arrives.** -/
theorem OnTheirWay.sendReplace (h : OnTheirWay s) {rev : Revision}
    (hpc : s.threads t = .sendReplace rev)
    (hturn : ∀ t' rev', s.threads t' = .sendReplace rev' → rev ≤ rev') :
    OnTheirWay { s.goto t (.send rev) with channel := rev } := by
  have hthreads : ∀ t' rev', (s.goto t (.send rev)).threads t' = .sendReplace rev' →
      t' ≠ t ∧ s.threads t' = .sendReplace rev' := by
    intro t' rev' ht
    rw [State.threads_goto] at ht
    split at ht
    · cases ht
    · next hne => exact ⟨hne, ht⟩
  obtain ⟨hlt, hle⟩ := h.bounds t rev hpc
  refine ⟨hle, fun t' rev' ht => ?_, fun t₁ t₂ rev' h₁ h₂ => ?_, fun rev' hlt' hle' => ?_⟩
  · obtain ⟨hne, ht⟩ := hthreads t' rev' ht
    refine ⟨Nat.lt_of_le_of_ne (hturn t' rev' ht) ?_, (h.bounds t' rev' ht).2⟩
    rintro rfl
    exact hne (h.own t' t rev ht hpc)
  · exact h.own t₁ t₂ rev' (hthreads t₁ rev' h₁).2 (hthreads t₂ rev' h₂).2
  · obtain ⟨t', ht'⟩ := h.sent rev' (Nat.lt_trans hlt hlt') hle'
    refine ⟨t', ?_⟩
    show (s.goto t _).threads t' = _
    rw [State.threads_goto, if_neg, ht']
    rintro rfl
    rw [hpc] at ht'
    cases ht'
    exact Nat.lt_irrefl _ hlt'

/-- **A step in turn** does not take the channel back. -/
theorem OnTheirWay.step (h : OnTheirWay s) (hs : s.step l = some s') (hturn : s.InTurn l) :
    OnTheirWay s' ∧ s.channel ≤ s'.channel := by
  cases step_cases hs with
  | call hpc =>
    refine ⟨h.goto .fetchAdd (fun rev ht => ?_) (fun _ => nofun) rfl rfl rfl, Nat.le_refl _⟩
    rw [ht] at hpc
    rcases hpc with hpc | ⟨_, hpc⟩ <;> cases hpc
  | fetchAdd hpc => exact ⟨h.fetchAdd hpc, Nat.le_refl _⟩
  | sendReplace hpc =>
    exact ⟨h.sendReplace hpc (hturn _ hpc), Nat.le_of_lt (h.bounds _ _ hpc).1⟩
  | @send t rev hpc =>
    refine ⟨h.goto (.returned rev) (fun rev ht => ?_) (fun _ => nofun) rfl rfl rfl, Nat.le_refl _⟩
    rw [ht] at hpc
    cases hpc

end steps

/-! ## 3. Runs -/

section runs

variable {r : Revision} {s s' : State} {ls : List Label}

/-- A call that comes too late stays behind: the channel would have to go back for it. -/
theorem late_step {l : Label} {t : ThreadId} {rev : Revision} (hs : s.step l = some s')
    (hmono : s.channel ≤ s'.channel) (hpc : s.threads t = .sendReplace rev)
    (hlate : rev < s.channel) : s'.threads t = .sendReplace rev ∧ rev < s'.channel := by
  refine ⟨?_, Nat.lt_of_lt_of_le hlate hmono⟩
  have hkeep : ∀ {t' pc}, t' ≠ t → (s.goto t' pc).threads t = .sendReplace rev := fun hne =>
    (State.threads_goto ..).trans ((if_neg hne.symm).trans hpc)
  cases step_cases hs with
  | call hpc' =>
    refine hkeep ?_
    rintro rfl
    rw [hpc] at hpc'
    rcases hpc' with hpc' | ⟨_, hpc'⟩ <;> cases hpc'
  | fetchAdd hpc' | send hpc' =>
    refine hkeep ?_
    rintro rfl
    rw [hpc] at hpc'
    cases hpc'
  | sendReplace hpc' =>
    refine hkeep ?_
    rintro rfl
    rw [hpc] at hpc'
    cases hpc'
    exact absurd hmono (Nat.not_le_of_lt hlate)

/-- **A run in which the channel never goes back is in turn**, as far as it can be completed. -/
theorem inTurn_of_monotone {ls' : List Label}
    (h : Trans.Steps State.step (fun m _ m' => m.channel ≤ m'.channel) (.start r) ls s)
    (h' : Trans.Steps State.step (fun m _ m' => m.channel ≤ m'.channel) s ls' s')
    (hquiet : s'.Quiet) : Trans.Steps State.step (fun m l _ => m.InTurn l) (.start r) ls s := by
  induction h generalizing ls' with
  | nil => exact .nil
  | @snoc ls l m s hls hl hmono ih =>
    refine .snoc (ih ((Trans.Steps.single hl hmono).trans h')) hl ?_
    cases l with
    | call t => trivial
    | step t =>
      intro rev hpc t' rev' hpc'
      refine Nat.le_of_not_lt fun hlt => ?_
      -- the earlier revision is still on its way when the later one has arrived
      have hne : t' ≠ t := by
        rintro rfl
        rw [hpc] at hpc'
        cases hpc'
        exact Nat.lt_irrefl _ hlt
      have hstep := step_cases hl
      have hbehind : s.threads t' = .sendReplace rev' ∧ rev' < s.channel := by
        cases hstep with
        | sendReplace hpc₁ =>
          rw [hpc] at hpc₁
          cases hpc₁
          exact ⟨(State.threads_goto ..).trans ((if_neg hne).trans hpc'), hlt⟩
        | fetchAdd hpc₁ | send hpc₁ =>
          rw [hpc] at hpc₁
          cases hpc₁
      obtain ⟨hend, -⟩ := h'.invariant hbehind fun m l m' hm hl hmono =>
        late_step hl hmono hm.1 hm.2
      rcases hquiet t' with hidle | ⟨_, hidle⟩ <;>
        · rw [hend] at hidle
          cases hidle

/-- **The channel keeps up with the counter** if the revisions are put into it in their order: it
never goes back, and holds the current revision when all calls have returned.  In a run that ends
with all calls returned and in which it never goes back, they are. -/
theorem channel_keeps_up (r : Revision) :
    (∀ ls s, Trans.Steps State.step (fun m l _ => m.InTurn l) (.start r) ls s →
      (∀ ls₁ m, ls₁ <+: ls → Trans.run State.step (.start r) ls₁ = some m →
        m.channel ≤ s.channel) ∧ (s.Quiet → s.channel = s.currentRevision)) ∧
    ∀ ls s, Trans.Steps State.step (fun m _ m' => m.channel ≤ m'.channel) (.start r) ls s →
      s.Quiet → Trans.Steps State.step (fun m l _ => m.InTurn l) (.start r) ls s := by
  refine ⟨fun ls s h => ⟨fun ls₁ m hprefix hrun => ?_, fun hquiet => ?_⟩, fun ls s h hquiet => ?_⟩
  · exact h.from_prefix (R := fun m s => m.channel ≤ s.channel) (onTheirWay_start r)
      (fun _ => Nat.le_refl _) (fun _ _ _ => Nat.le_trans) (fun m l m' hm hl hturn =>
        hm.step hl hturn) hprefix hrun
  · have hway := h.invariant (onTheirWay_start r) fun m l m' hm hl hturn => (hm.step hl hturn).1
    refine Nat.le_antisymm hway.le (Nat.le_of_not_lt fun hlt => ?_)
    -- the current revision would still be on its way
    obtain ⟨t, ht⟩ := hway.sent _ hlt (Nat.le_refl _)
    rcases hquiet t with hidle | ⟨_, hidle⟩ <;>
      · rw [ht] at hidle
        cases hidle
  · exact inTurn_of_monotone h .nil hquiet

/-- Two calls: the second puts its revision into the channel before the first. -/
def overtaking : List Label :=
  [.call 0, .call 1, .step 0, .step 1, .step 1, .step 0, .step 0, .step 1]

/-- **The channel goes back**, and holds the revision before the current one in the end. -/
theorem channel_goes_back :
    ∃ m s, Trans.run State.step (.start 0) (overtaking.take 5) = some m ∧
      Trans.run State.step (.start 0) overtaking = some s ∧ m.channel = 2 ∧ s.channel = 1 ∧
        s.currentRevision = 2 ∧ s.Quiet := by
  refine ⟨_, _, rfl, rfl, rfl, rfl, rfl, fun t => ?_⟩
  match t with
  | 0 => exact .inr ⟨1, rfl⟩
  | 1 => exact .inr ⟨2, rfl⟩
  | t + 2 => exact .inl rfl

/-- The first call puts its revision into the channel before the second. -/
def inOrder : List Label :=
  [.call 0, .call 1, .step 0, .step 1, .step 0, .step 1, .step 1, .step 0]

/-- The channel does not go back in the step. -/
def keeps (s : State) (l : Label) : Bool :=
  (s.step l).all fun s' => decide (s.channel ≤ s'.channel)

/-- The calls overlap, and the channel holds the current revision in the end. -/
theorem channel_is_current : ∃ s, Trans.run State.step (.start 0) inOrder = some s ∧
    s.channel = s.currentRevision ∧ s.currentRevision = 2 := by
  obtain ⟨s, hrun, hquiet, hrev⟩ : ∃ s, Trans.run (fun s l => if keeps s l then State.step s l
      else none) (.start 0) inOrder = some s ∧ s.Quiet ∧ s.currentRevision = 2 := by
    refine ⟨_, rfl, fun t => ?_, rfl⟩
    match t with
    | 0 => exact .inr ⟨1, rfl⟩
    | 1 => exact .inr ⟨2, rfl⟩
    | t + 2 => exact .inl rfl
  -- what the check says of a step is that the channel does not go back
  have hsteps :
      Trans.Steps State.step (fun m _ m' => m.channel ≤ m'.channel) (.start 0) inOrder s :=
    ((Trans.Steps.of_checked_run keeps hrun).strengthen (I := fun _ => True) trivial
      fun m l m' _ hl ⟨_, hkeeps⟩ => ⟨trivial, by simpa [keeps, hl] using hkeeps⟩).1
  obtain ⟨hkeeps, hturns⟩ := channel_keeps_up 0
  obtain ⟨-, hcurrent⟩ := hkeeps _ _ (hturns _ _ hsteps hquiet)
  exact ⟨s, hsteps.run, hcurrent hquiet, hrev⟩

end runs

end Watch

end Picante

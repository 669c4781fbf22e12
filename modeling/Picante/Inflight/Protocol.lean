/-
# The protocol of the in-flight registry

`inflight.rs` on its own: any number of guards and followers, each going its own way, the registry
between them.  A call on a guard is a sequence of separate steps (the state is written, the
waiters are notified, the flag is set, the key is removed, and at its end the drop handler runs);
a follower makes its `notified` future, reads the state, and waits.  Which task holds a guard or
waits does not matter here: a task is any number of both.

* `Sound` -- what holds in every reachable state: the guard of an entry is at one of the points of
  its call (`GuardAt`), only the entries of live guards are filed, and no ticket outlives the
  notification.
* `registry_protocol` -- one live guard for a key, removals by the own guard only, states that are
  written once, and no follower left behind.
-/
import Picante.Inflight
import Picante.Trans.Run

namespace Picante

namespace Protocol

variable {V : Type}

/-! ## 1. Guards -/

/-- What is done with a guard: one of its methods is called on it, or it is dropped. -/
inductive GuardCall (V : Type) where
  | complete (value : V) (deps : List Dep) (changedAt : Revision)
  | fail (error : PicanteError)
  | drop
  deriving Repr

/-- One operation of such a call. -/
inductive GuardOp (V : Type) where
  | setState (state : InFlightState V)
  | notify
  | setCompleted
  | remove
  /-- the drop handler, where the guard goes out of scope -/
  | dropped

def GuardOp.isRemove : GuardOp V → Bool
  | .remove => true
  | _ => false

/-- The state the entry is left in. -/
def GuardCall.outcome : GuardCall V → InFlightState V
  | .complete value deps changedAt => .done value deps changedAt
  | .fail error => .failed error
  | .drop => .cancelled

/-- The body of `complete` and of `fail`. -/
def finishOps (state : InFlightState V) : List (GuardOp V) :=
  [.setState state, .notify, .setCompleted, .remove, .dropped]

/-- The drop handler of a guard that was not completed. -/
def cancelOps : List (GuardOp V) := [.setState .cancelled, .notify, .remove]

def GuardCall.ops : GuardCall V → List (GuardOp V)
  | .complete value deps changedAt => finishOps (.done value deps changedAt)
  | .fail error => finishOps (.failed error)
  | .drop => [.dropped]

/-- A guard: its key and entry, its flag, the call on it and what is left of that. -/
structure Guard (V : Type) where
  guard : InFlightGuard
  completed : Bool
  call : Option (GuardCall V)
  ops : List (GuardOp V)

/-- The guard a leader gets. -/
def Guard.new (key : InFlightKey) (entry : EntryId) : Guard V := ⟨⟨key, entry⟩, false, none, []⟩

/-- One operation of the call on the guard. -/
def stepGuard (r : Registry V) (g : Guard V) (ops : List (GuardOp V)) :
    GuardOp V → Registry V × Guard V
  | .setState state => (r.setState g.guard.entry state, { g with ops })
  | .notify => (r.notify g.guard.entry, { g with ops })
  | .setCompleted => (r, { g with completed := true, ops })
  | .remove => (r.remove g.guard.key, { g with ops })
  | .dropped => (r, { g with ops := if g.completed then ops else cancelOps ++ ops })

/-- The guard is held, or the call on it has not come to the removal yet. -/
def Guard.Live (g : Guard V) : Prop :=
  g.call = none ∨ .remove ∈ g.ops ∨ .dropped ∈ g.ops ∧ g.completed = false

/-- The call on the guard is over. -/
def Guard.Finished (g : Guard V) : Prop := g.call ≠ none ∧ g.ops = []

/-! ## 2. Followers, and the machine -/

/-- Where a follower is in its loop.  `seen` counts the notifications its `notified` future does
not hear. -/
inductive Follower where
  /-- about to make the future -/
  | listen (e : EntryId)
  /-- about to read the state of the entry -/
  | read (e : EntryId) (seen : Nat)
  /-- awaiting the future -/
  | parked (e : EntryId) (seen : Nat)
  /-- out of the loop, or dropped -/
  | left
  deriving Repr

/-- The registry, the guard that was made with each entry, and the followers. -/
structure State (V : Type) where
  registry : Registry V
  guards : EntryId → Guard V
  followers : Nat → Follower
  nextFollower : Nat

inductive Label (V : Type) where
  /-- `try_lead`, under the lock of the map entry -/
  | tryLead (view : ViewId) (key : InFlightKey)
  /-- a method of the guard is called, or it is dropped -/
  | call (e : EntryId) (c : GuardCall V)
  /-- the next operation of the call on a guard -/
  | guard (e : EntryId)
  /-- the next step of a follower -/
  | follow (f : Nat)
  /-- a follower is dropped -/
  | abandon (f : Nat)

namespace State

def init : State V :=
  { registry := .empty
    guards := fun e => ⟨⟨⟨0, 0, ⟨0, []⟩⟩, e⟩, true, some .drop, []⟩
    followers := fun _ => .left
    nextFollower := 0 }

def setGuard (s : State V) (e : EntryId) (g : Guard V) : State V :=
  { s with guards := Function.update s.guards e g }

def setFollower (s : State V) (f : Nat) (x : Follower) : State V :=
  { s with followers := Function.update s.followers f x }

/-- One step; `none` where it cannot happen. -/
def step (s : State V) : Label V → Option (State V)
  | .tryLead view key =>
    match s.registry.filed key with
    | some e =>
      some { s.setFollower s.nextFollower (.listen e) with nextFollower := s.nextFollower + 1 }
    | none =>
      let e := s.registry.nextEntry
      some { s.setGuard e (.new key e) with registry := s.registry.lead key view }
  | .call e c =>
    -- the methods take the guard by value: nothing else is called on it
    if e < s.registry.nextEntry ∧ (s.guards e).call.isNone then
      some (s.setGuard e { s.guards e with call := some c, ops := c.ops })
    else none
  | .guard e =>
    match (s.guards e).ops with
    | [] => none
    | op :: ops =>
      if e < s.registry.nextEntry then
        let (registry, g) := stepGuard s.registry (s.guards e) ops op
        some { s.setGuard e g with registry }
      else none
  | .follow f =>
    match s.followers f with
    | .listen e => some (s.setFollower f (.read e (s.registry.entries e).epoch))
    | .read e seen =>
      match (s.registry.entries e).state with
      | .running => some (s.setFollower f (.parked e seen))
      | _ => some (s.setFollower f .left)
    | .parked e seen =>
      if (s.registry.entries e).epoch = seen then none else some (s.setFollower f (.listen e))
    | .left => none
  | .abandon f => some (s.setFollower f .left)

variable (s : State V)

/-- The guard of the entry is live. -/
def Live (e : EntryId) : Prop := e < s.registry.nextEntry ∧ (s.guards e).Live

/-- The operation of the entry's guard is over. -/
def Finished (e : EntryId) : Prop := e < s.registry.nextEntry ∧ (s.guards e).Finished

/-- The state of the entry. -/
def entryState (e : EntryId) : InFlightState V := (s.registry.entries e).state

/-- The follower awaits a notification of the entry, and none has come. -/
def Parked (f : Nat) (e : EntryId) : Prop :=
  s.followers f = .parked e (s.registry.entries e).epoch

end State

/-! ## 3. Where a guard is in its call -/

/-- The guard and the state and notifications of its entry, at one of the points of the call: `n`
is the number of operations done. -/
inductive GuardAt (g : Guard V) : InFlightState V → Nat → Prop
  | held (hcall : g.call = none) (hops : g.ops = []) (hflag : g.completed = false) :
      GuardAt g .running 0
  | finishing {c : GuardCall V} (n : Nat) (hcall : g.call = some c) (hc : c ≠ .drop)
      (hops : g.ops = (finishOps c.outcome).drop n) (hflag : g.completed = decide (3 ≤ n)) :
      GuardAt g (if n = 0 then .running else c.outcome) (if n ≤ 1 then 0 else 1)
  | dropping (hcall : g.call = some .drop) (hops : g.ops = [.dropped])
      (hflag : g.completed = false) : GuardAt g .running 0
  | cancelling (n : Nat) (hcall : g.call = some .drop) (hops : g.ops = cancelOps.drop n)
      (hflag : g.completed = false) :
      GuardAt g (if n = 0 then .running else .cancelled) (if n ≤ 1 then 0 else 1)

/-- The state and the notifications of the entry after one operation. -/
def GuardOp.stateAfter (st : InFlightState V) : GuardOp V → InFlightState V
  | .setState st' => st'
  | _ => st

def GuardOp.epochAfter (epoch : Nat) : GuardOp V → Nat
  | .notify => epoch + 1
  | _ => epoch

section guard

variable {r : Registry V} {g : Guard V} {op : GuardOp V} {ops : List (GuardOp V)}
  {st : InFlightState V} {epoch : Nat}

/-- What one operation of the call on the guard does to the registry. -/
structure OpEffect (r : Registry V) (g : Guard V) (op : GuardOp V) (r' : Registry V)
    (g' : Guard V) : Prop where
  guard : g'.guard = g.guard
  call : g'.call = g.call
  nextEntry : r'.nextEntry = r.nextEntry
  others : ∀ e, e ≠ g.guard.entry → r'.entries e = r.entries e
  own : r'.entries g.guard.entry =
    { r.entries g.guard.entry with
      state := op.stateAfter (r.entries g.guard.entry).state
      epoch := op.epochAfter (r.entries g.guard.entry).epoch }
  filed : ∀ k, r'.filed k = if op.isRemove ∧ k = g.guard.key then none else r.filed k

theorem opEffect (r : Registry V) (g : Guard V) (ops : List (GuardOp V)) (op : GuardOp V) :
    OpEffect r g op (stepGuard r g ops op).1 (stepGuard r g ops op).2 := by
  cases op with
  | setState st =>
    exact ⟨rfl, rfl, rfl, fun e he => Function.update_of_ne he .., Function.update_self ..,
      fun k => rfl⟩
  | notify =>
    exact ⟨rfl, rfl, rfl, fun e he => Function.update_of_ne he .., Function.update_self ..,
      fun k => rfl⟩
  | setCompleted | dropped => exact ⟨rfl, rfl, rfl, fun e he => rfl, rfl, fun k => rfl⟩
  | remove =>
    refine ⟨rfl, rfl, rfl, fun e he => rfl, rfl, fun k => ?_⟩
    simp [stepGuard, Registry.remove, GuardOp.isRemove, Function.update_apply]

/-- **An operation of a call comes to the next point of it.** -/
theorem GuardAt.step (h : GuardAt g st epoch) (hops : g.ops = op :: ops) (r : Registry V) :
    GuardAt (stepGuard r g ops op).2 (op.stateAfter st) (op.epochAfter epoch) := by
  cases h with
  | held _ hnone _ =>
    rw [hnone] at hops
    cases hops
  | @finishing c n hcall hc hlist hflag =>
    rw [hops] at hlist
    rcases n with _ | _ | _ | _ | _ | n
    · cases hlist
      exact .finishing 1 hcall hc rfl hflag
    · cases hlist
      exact .finishing 2 hcall hc rfl hflag
    · cases hlist
      exact .finishing 3 hcall hc rfl rfl
    · cases hlist
      exact .finishing 4 hcall hc rfl hflag
    · cases hlist
      exact .finishing 5 hcall hc (by simp [stepGuard, hflag, finishOps]) hflag
    · simp [finishOps] at hlist
  | dropping hcall hlist hflag =>
    rw [hops] at hlist
    cases hlist
    exact .cancelling 0 hcall (by simp [stepGuard, hflag]) hflag
  | cancelling n hcall hlist hflag =>
    rw [hops] at hlist
    rcases n with _ | _ | _ | n
    · cases hlist
      exact .cancelling 1 hcall rfl hflag
    · cases hlist
      exact .cancelling 2 hcall rfl hflag
    · cases hlist
      exact .cancelling 3 hcall rfl hflag
    · simp [cancelOps] at hlist

/-- A state that was written is not written again. -/
theorem GuardAt.written (h : GuardAt g st epoch) (hops : g.ops = op :: ops)
    (hst : st ≠ .running) : op.stateAfter st = st := by
  cases h with
  | held | dropping => exact absurd rfl hst
  | finishing n hcall hc hlist hflag =>
    rw [hops] at hlist
    rcases n with _ | _ | _ | _ | _ | n
    · exact absurd rfl hst
    all_goals first | (cases hlist; rfl) | simp [finishOps] at hlist
  | cancelling n hcall hlist hflag =>
    rw [hops] at hlist
    rcases n with _ | _ | _ | n
    · exact absurd rfl hst
    all_goals first | (cases hlist; rfl) | simp [cancelOps] at hlist

/-- A guard is live until the operation that removes the key. -/
theorem GuardAt.live_step (h : GuardAt g st epoch) (hops : g.ops = op :: ops) (r : Registry V) :
    ((stepGuard r g ops op).2.Live ↔ g.Live ∧ ¬op.isRemove) ∧ (op.isRemove → g.Live) := by
  have hremove : op.isRemove → g.Live := by
    intro hop
    cases op <;> cases hop
    exact .inr (.inl (hops ▸ List.mem_cons_self ..))
  refine ⟨?_, hremove⟩
  cases h with
  | held _ hnone _ =>
    rw [hnone] at hops
    cases hops
  | finishing n hcall hc hlist hflag =>
    rw [hops] at hlist
    rcases n with _ | _ | _ | _ | _ | n
    all_goals first
      | (cases hlist; simp [Guard.Live, stepGuard, GuardOp.isRemove, hcall, hops, hflag])
      | simp [finishOps] at hlist
  | dropping hcall hlist hflag =>
    rw [hops] at hlist
    cases hlist
    simp [Guard.Live, stepGuard, GuardOp.isRemove, hcall, hops, hflag, cancelOps]
  | cancelling n hcall hlist hflag =>
    rw [hops] at hlist
    rcases n with _ | _ | _ | n
    all_goals first
      | (cases hlist; simp [Guard.Live, stepGuard, GuardOp.isRemove, hcall, hops, hflag])
      | simp [cancelOps] at hlist

/-- The state is running, or the outcome of the call. -/
theorem GuardAt.outcome (h : GuardAt g st epoch) :
    st = .running ∨ ∃ c, g.call = some c ∧ st = c.outcome := by
  cases h with
  | held | dropping => exact .inl rfl
  | @finishing c n hcall =>
    split
    · exact .inl rfl
    · exact .inr ⟨c, hcall, rfl⟩
  | cancelling n hcall =>
    split
    · exact .inl rfl
    · exact .inr ⟨_, hcall, rfl⟩

/-- Where the state is running, nobody was notified yet. -/
theorem GuardAt.epoch_of_running (h : GuardAt g .running epoch) : epoch = 0 := by
  generalize hst : InFlightState.running = st at h
  cases h with
  | held | dropping => rfl
  | @finishing c n _ hc =>
    split at hst
    · next hn => rw [if_pos (by omega)]
    · cases c <;> cases hst
  | cancelling n =>
    split at hst
    · next hn => rw [if_pos (by omega)]
    · cases hst

/-- Nothing was done yet on behalf of a guard that is held. -/
theorem GuardAt.of_held (h : GuardAt g st epoch) (hcall : g.call = none) :
    st = .running ∧ epoch = 0 ∧ g.completed = false := by
  cases h with
  | held _ _ hflag => exact ⟨rfl, rfl, hflag⟩
  | finishing _ hsome | dropping hsome | cancelling _ hsome =>
    rw [hcall] at hsome
    cases hsome

/-- At the end of the call the state is its outcome, and the waiters were notified. -/
theorem GuardAt.of_finished (h : GuardAt g st epoch) (hfin : g.Finished) :
    epoch = 1 ∧ ∃ c, g.call = some c ∧ st = c.outcome := by
  obtain ⟨hnone, hops⟩ := hfin
  cases h with
  | held hcall => exact absurd hcall hnone
  | @finishing c n hcall hc hlist hflag =>
    rw [hops] at hlist
    rcases n with _ | _ | n
    · cases hlist
    · cases hlist
    · exact ⟨if_neg (by omega), c, hcall, if_neg (by omega)⟩
  | dropping _ hlist =>
    rw [hops] at hlist
    cases hlist
  | cancelling n hcall hlist hflag =>
    rw [hops] at hlist
    rcases n with _ | _ | n
    · cases hlist
    · cases hlist
    · exact ⟨if_neg (by omega), _, hcall, if_neg (by omega)⟩

end guard

/-! ## 4. Reachable states -/

/-- What is known of a follower's ticket: a future that was made before a notification is one that
was made while the state was running. -/
def Follower.Fits (r : Registry V) : Follower → Prop
  | .listen e => e < r.nextEntry
  | .read e seen => e < r.nextEntry ∧ seen ≤ (r.entries e).epoch
  | .parked e seen => e < r.nextEntry ∧ seen = 0
  | .left => True

/-- **What holds in every reachable state.** -/
structure Sound (s : State V) : Prop where
  guard : ∀ e, e < s.registry.nextEntry → (s.guards e).guard = ⟨(s.registry.entries e).key, e⟩
  point : ∀ e, e < s.registry.nextEntry →
    GuardAt (s.guards e) (s.entryState e) (s.registry.entries e).epoch
  filed : ∀ k e, s.registry.filed k = some e ↔ s.Live e ∧ (s.guards e).guard.key = k
  fits : ∀ f, (s.followers f).Fits s.registry

theorem sound_init : Sound (State.init : State V) where
  guard e he := absurd he (Nat.not_lt_zero e)
  point e he := absurd he (Nat.not_lt_zero e)
  filed _ e := ⟨nofun, fun h => absurd h.1.1 (Nat.not_lt_zero e)⟩
  fits _ := trivial

theorem Follower.Fits.mono {r r' : Registry V} {x : Follower} (h : x.Fits r)
    (hnext : r.nextEntry ≤ r'.nextEntry)
    (hepoch : ∀ e, e < r.nextEntry → (r.entries e).epoch ≤ (r'.entries e).epoch) : x.Fits r' := by
  cases x with
  | listen e => exact Nat.lt_of_lt_of_le h hnext
  | read e seen => exact ⟨Nat.lt_of_lt_of_le h.1 hnext, Nat.le_trans h.2 (hepoch e h.1)⟩
  | parked e seen => exact ⟨Nat.lt_of_lt_of_le h.1 hnext, h.2⟩
  | left => trivial

section sound

variable {s s' : State V}

theorem Sound.setFollower (h : Sound s) {x : Follower} (hx : x.Fits s.registry) (f : Nat) :
    Sound (s.setFollower f x) where
  guard := h.guard
  point := h.point
  filed := h.filed
  fits f' := by
    rcases eq_or_ne f' f with rfl | hne
    · simpa [State.setFollower] using hx
    · simpa [State.setFollower, hne] using h.fits f'

/-- A key nothing is filed under is led: the new guard is the live one of the key. -/
theorem Sound.lead (h : Sound s) {key : InFlightKey} (hnone : s.registry.filed key = none)
    (view : ViewId) :
    Sound { s.setGuard s.registry.nextEntry (.new key s.registry.nextEntry) with
      registry := s.registry.lead key view } := by
  have hother : ∀ {e}, e < s.registry.nextEntry + 1 → e ≠ s.registry.nextEntry →
      e < s.registry.nextEntry := fun h hne => Nat.lt_of_le_of_ne (Nat.le_of_lt_succ h) hne
  refine ⟨fun e he => ?_, fun e he => ?_, fun k e => ?_, fun f => ?_⟩
  · rcases eq_or_ne e s.registry.nextEntry with rfl | hne
    · simp [State.setGuard, Registry.lead, Guard.new]
    · simpa [State.setGuard, Registry.lead, hne] using h.guard e (hother he hne)
  · rcases eq_or_ne e s.registry.nextEntry with rfl | hne
    · simp only [State.setGuard, State.entryState, Registry.lead, Function.update_self]
      exact .held rfl rfl rfl
    · simpa [State.setGuard, State.entryState, Registry.lead, hne] using
        h.point e (hother he hne)
  · rcases eq_or_ne e s.registry.nextEntry with rfl | hne
    · have hfiled : ∀ k, s.registry.filed k ≠ some s.registry.nextEntry :=
        fun k hk => Nat.lt_irrefl _ ((h.filed k _).mp hk).1.1
      simp only [State.Live, State.setGuard, Registry.lead, Function.update_self, Guard.new,
        Function.update_apply]
      constructor
      · intro hk
        split at hk
        · next heq => exact ⟨⟨Nat.lt_succ_self _, .inl rfl⟩, heq.symm⟩
        · exact absurd hk (hfiled k)
      · intro hk
        exact if_pos hk.2.symm
    · have hiff := h.filed k e
      simp only [State.Live, State.setGuard, Registry.lead, Function.update_of_ne hne,
        Function.update_apply]
      constructor
      · intro hk
        split at hk
        · cases hk
          exact absurd rfl hne
        · obtain ⟨⟨hlt, hlive⟩, hkey⟩ := hiff.mp hk
          exact ⟨⟨Nat.lt_succ_of_lt hlt, hlive⟩, hkey⟩
      · rintro ⟨⟨hlt, hlive⟩, hkey⟩
        have hk := hiff.mpr ⟨⟨hother hlt hne, hlive⟩, hkey⟩
        rw [if_neg, hk]
        rintro rfl
        rw [hnone] at hk
        cases hk
  · refine (h.fits f).mono (Nat.le_succ _) fun e he => ?_
    simp [Registry.lead, Nat.ne_of_lt he]

/-- A call begins on a guard that is held. -/
theorem Sound.call (h : Sound s) {e : EntryId} (he : e < s.registry.nextEntry)
    (hheld : (s.guards e).call = none) (c : GuardCall V) :
    Sound (s.setGuard e { s.guards e with call := some c, ops := c.ops }) := by
  obtain ⟨hst, hepoch, hflag⟩ := (h.point e he).of_held hheld
  refine ⟨fun e' he' => ?_, fun e' he' => ?_, fun k e' => ?_, h.fits⟩
  · rcases eq_or_ne e' e with rfl | hne
    · simpa [State.setGuard] using h.guard e' he'
    · simpa [State.setGuard, hne] using h.guard e' he'
  · rcases eq_or_ne e' e with rfl | hne
    · simp only [State.setGuard, State.entryState, Function.update_self] at hst hepoch ⊢
      rw [hst, hepoch]
      cases c with
      | complete | fail => exact .finishing 0 rfl nofun rfl hflag
      | drop => exact .dropping rfl rfl hflag
    · simpa [State.setGuard, State.entryState, hne] using h.point e' he'
  · rcases eq_or_ne e' e with rfl | hne
    · have hlive : (s.guards e').Live := .inl hheld
      have hlive' : Guard.Live { s.guards e' with call := some c, ops := c.ops } := by
        cases c with
        | complete | fail => exact .inr (.inl (by simp [GuardCall.ops, finishOps]))
        | drop => exact .inr (.inr ⟨List.mem_singleton.mpr rfl, hflag⟩)
      have hiff := h.filed k e'
      simp only [State.Live, hlive, and_true] at hiff
      simpa only [State.Live, State.setGuard, Function.update_self, hlive', and_true] using hiff
    · simpa [State.Live, State.setGuard, hne] using h.filed k e'

/-- **An operation of the call on a guard** keeps all in order. -/
theorem Sound.guardStep (h : Sound s) {e : EntryId} (he : e < s.registry.nextEntry)
    {op : GuardOp V} {ops : List (GuardOp V)} (hops : (s.guards e).ops = op :: ops) :
    Sound { s.setGuard e (stepGuard s.registry (s.guards e) ops op).2 with
      registry := (stepGuard s.registry (s.guards e) ops op).1 } := by
  have hguard := h.guard e he
  have heff := opEffect s.registry (s.guards e) ops op
  have hstep := (h.point e he).step hops s.registry
  obtain ⟨hlive, hremoves⟩ := (h.point e he).live_step hops s.registry
  have hentry : (s.guards e).guard.entry = e := by rw [hguard]
  have hown := heff.own
  have hothers := heff.others
  rw [hentry] at hown hothers
  refine ⟨fun e' he' => ?_, fun e' he' => ?_, fun k e' => ?_, fun f => ?_⟩
  · rcases eq_or_ne e' e with rfl | hne
    · simp [State.setGuard, heff.guard, hown, hguard]
    · simpa [State.setGuard, hne, hothers e' hne] using h.guard e' (heff.nextEntry ▸ he')
  · rcases eq_or_ne e' e with rfl | hne
    · simpa [State.setGuard, State.entryState, hown] using hstep
    · simpa [State.setGuard, State.entryState, hne, hothers e' hne] using
        h.point e' (heff.nextEntry ▸ he')
  · rcases eq_or_ne e' e with rfl | hne
    · simp only [State.Live, State.setGuard, Function.update_self, heff.guard, heff.nextEntry,
        heff.filed, hlive]
      constructor
      · intro hk
        split at hk
        · cases hk
        · next hno =>
          obtain ⟨⟨hlt, hl⟩, hkey⟩ := (h.filed k e').mp hk
          exact ⟨⟨hlt, hl, fun hr => hno ⟨hr, hkey.symm⟩⟩, hkey⟩
      · rintro ⟨⟨hlt, hl, hr⟩, hkey⟩
        rw [if_neg fun hno => hr hno.1]
        exact (h.filed k e').mpr ⟨⟨hlt, hl⟩, hkey⟩
    · have hiff := h.filed k e'
      simp only [State.Live, State.setGuard, Function.update_of_ne hne, heff.nextEntry,
        heff.filed]
      split
      · next hr =>
        -- the key was filed for the guard that removes it, so no other live guard has it
        obtain ⟨hr, rfl⟩ := hr
        have hmine := (h.filed _ e).mpr ⟨⟨he, hremoves hr⟩, rfl⟩
        refine ⟨nofun, fun hk => ?_⟩
        have htheirs := hiff.mpr hk
        rw [hmine] at htheirs
        exact absurd (Option.some.inj htheirs).symm hne
      · exact hiff
  · refine (h.fits f).mono (Nat.le_of_eq heff.nextEntry.symm) fun e' he' => ?_
    rcases eq_or_ne e' e with rfl | hne
    · rw [hown]
      cases op <;> simp [GuardOp.epochAfter]
    · simp only [hothers e' hne]
      exact Nat.le_refl _

/-- **A step of a follower** keeps all in order: one that waits has read `Running` after it made
its future, so its future hears the notification. -/
theorem Sound.follow (h : Sound s) {f : Nat} (hs : s.step (.follow f) = some s') : Sound s' := by
  have hf := h.fits f
  simp only [State.step] at hs
  split at hs
  · next e hlisten =>
    cases hs
    rw [hlisten] at hf
    exact h.setFollower (x := .read e _) ⟨hf, Nat.le_refl _⟩ f
  · next e seen hread =>
    rw [hread] at hf
    split at hs
    · next hrunning =>
      cases hs
      have hpoint := h.point e hf.1
      rw [State.entryState, hrunning] at hpoint
      refine h.setFollower (x := .parked e seen) ⟨hf.1, ?_⟩ f
      have hseen := hf.2
      rw [hpoint.epoch_of_running] at hseen
      exact Nat.le_zero.mp hseen
    · cases hs
      exact h.setFollower (x := .left) trivial f
  · next e seen hparked =>
    rw [hparked] at hf
    split at hs <;> cases hs
    exact h.setFollower (x := .listen e) hf.1 f
  · cases hs

/-- **A step of the protocol** keeps all in order. -/
theorem Sound.step (h : Sound s) {l : Label V} (hs : s.step l = some s') : Sound s' := by
  cases l with
  | tryLead view key =>
    simp only [State.step] at hs
    split at hs
    · next e he =>
      cases hs
      exact { h.setFollower (x := .listen e) ((h.filed key e).mp he).1.1 s.nextFollower with }
    · next hnone =>
      cases hs
      exact h.lead hnone view
  | call e c =>
    simp only [State.step] at hs
    split at hs
    · next hheld =>
      cases hs
      exact h.call hheld.1 (Option.isNone_iff_eq_none.mp hheld.2) c
    · cases hs
  | guard e =>
    simp only [State.step] at hs
    split at hs
    · cases hs
    · next op ops hops =>
      split at hs
      · next hlt =>
        cases hs
        exact h.guardStep hlt hops
      · cases hs
  | follow f => exact h.follow hs
  | abandon f =>
    cases hs
    exact h.setFollower (x := .left) trivial f

/-- What a step leaves of what is filed and of the states that were written. -/
structure Kept (l : Label V) (s s' : State V) : Prop where
  nextEntry : s.registry.nextEntry ≤ s'.registry.nextEntry
  filed : ∀ k e, s.registry.filed k = some e →
    s'.registry.filed k = some e ∨ l = .guard e ∧ s'.registry.filed k = none
  written : ∀ e, e < s.registry.nextEntry → s.entryState e ≠ .running →
    s'.entryState e = s.entryState e

theorem Sound.kept_guard (h : Sound s) {e : EntryId} (he : e < s.registry.nextEntry)
    {op : GuardOp V} {ops : List (GuardOp V)} (hops : (s.guards e).ops = op :: ops) :
    Kept (.guard e) s { s.setGuard e (stepGuard s.registry (s.guards e) ops op).2 with
      registry := (stepGuard s.registry (s.guards e) ops op).1 } := by
  have heff := opEffect s.registry (s.guards e) ops op
  have hown := heff.own
  have hothers := heff.others
  rw [h.guard e he] at hown hothers
  refine ⟨Nat.le_of_eq heff.nextEntry.symm, fun k e' hk => ?_, fun e' _ hst => ?_⟩
  · have hiff := heff.filed k
    split at hiff
    · next hr =>
      -- the entry under the key is that of the live guard, which is this one
      obtain ⟨hr, rfl⟩ := hr
      have hlive := ((h.point e he).live_step hops s.registry).2 hr
      have hmine := (h.filed _ e).mpr ⟨⟨he, hlive⟩, rfl⟩
      rw [hk] at hmine
      cases hmine
      exact .inr ⟨rfl, hiff⟩
    · exact .inl (hiff.trans hk)
  · rcases eq_or_ne e' e with rfl | hne
    · simp only [State.entryState, hown]
      exact (h.point e' he).written hops hst
    · simp only [State.entryState, hothers e' hne]

theorem Sound.kept (h : Sound s) {l : Label V} (hs : s.step l = some s') : Kept l s s' := by
  have hsame : s'.registry = s.registry → Kept l s s' := by
    intro heq
    refine ⟨Nat.le_of_eq (by rw [heq]), fun k e hk => .inl (heq ▸ hk), fun e _ _ => ?_⟩
    simp only [State.entryState, heq]
  cases l with
  | tryLead view key =>
    simp only [State.step] at hs
    split at hs <;> cases hs
    · exact hsame rfl
    · next hnone =>
      refine ⟨Nat.le_succ _, fun k e hk => .inl ?_, fun e he _ => ?_⟩
      · refine (Function.update_of_ne ?_ ..).trans hk
        rintro rfl
        rw [hnone] at hk
        cases hk
      · simp [State.entryState, Registry.lead, Nat.ne_of_lt he]
  | call e c =>
    simp only [State.step] at hs
    split at hs <;> cases hs
    exact hsame rfl
  | guard e =>
    simp only [State.step] at hs
    split at hs
    · cases hs
    · next op ops hops =>
      split at hs
      · next hlt =>
        cases hs
        exact h.kept_guard hlt hops
      · cases hs
  | follow f =>
    simp only [State.step] at hs
    split at hs
    · cases hs
      exact hsame rfl
    · split at hs <;> cases hs <;> exact hsame rfl
    · split at hs <;> cases hs
      exact hsame rfl
    · cases hs
  | abandon f =>
    cases hs
    exact hsame rfl

/-- A state that was written stays as it is in every further run. -/
theorem Sound.written (h : Sound s) {ls : List (Label V)}
    (hrun : Trans.run State.step s ls = some s') {e : EntryId} (he : e < s.registry.nextEntry)
    (hst : s.entryState e ≠ .running) : s'.entryState e = s.entryState e := by
  obtain ⟨-, -, heq⟩ := (Trans.Steps.of_run hrun).invariant
    (I := fun m => Sound m ∧ e < m.registry.nextEntry ∧ m.entryState e = s.entryState e)
    ⟨h, he, rfl⟩ fun m l m' ⟨hm, hlt, heq⟩ hl _ => by
      have hkept := hm.kept hl
      refine ⟨hm.step hl, Nat.lt_of_lt_of_le hlt hkept.nextEntry, ?_⟩
      rw [hkept.written e hlt (heq ▸ hst), heq]
  exact heq

end sound

theorem sound_run {ls : List (Label V)} {s : State V}
    (h : Trans.run State.step .init ls = some s) : Sound s :=
  (Trans.Steps.of_run h).invariant sound_init fun _ _ _ hm hl _ => hm.step hl

/-- **The protocol of the registry**, in every reachable state: a key has at most one live guard;
what is filed is the entry of a live guard under its own key, and only that guard removes it; an
entry is running, or in the state its guard was called for, which it has at the end of the call
and keeps ever after; and at the end of the call no follower of the entry is parked. -/
theorem registry_protocol {ls : List (Label V)} {s : State V}
    (h : Trans.run State.step .init ls = some s) :
    (∀ e e', s.Live e → s.Live e' → (s.guards e).guard.key = (s.guards e').guard.key → e = e') ∧
    (∀ k e, s.registry.filed k = some e → s.Live e ∧ (s.guards e).guard = ⟨k, e⟩) ∧
    (∀ l s' k e, s.step l = some s' → s.registry.filed k = some e →
      s'.registry.filed k = some e ∨ l = .guard e ∧ s'.registry.filed k = none) ∧
    (∀ e, e < s.registry.nextEntry → s.entryState e = .running ∨
      ∃ c, (s.guards e).call = some c ∧ s.entryState e = c.outcome) ∧
    (∀ e, s.Finished e → ∃ c, (s.guards e).call = some c ∧ s.entryState e = c.outcome) ∧
    (∀ ls' s' e, Trans.run State.step s ls' = some s' → e < s.registry.nextEntry →
      s.entryState e ≠ .running → s'.entryState e = s.entryState e) ∧
    (∀ f e, s.Finished e → ¬s.Parked f e) := by
  have hs := sound_run h
  refine ⟨fun e e' he he' hkey => ?_, fun k e hk => ?_, fun l s' k e hl => (hs.kept hl).filed k e,
    fun e he => (hs.point e he).outcome, fun e he => ((hs.point e he.1).of_finished he.2).2,
    fun ls' s' e hrun => hs.written hrun, fun f e he hparked => ?_⟩
  · have hfiled := (hs.filed _ e).mpr ⟨he, hkey⟩
    have hfiled' := (hs.filed _ e').mpr ⟨he', rfl⟩
    rw [hfiled] at hfiled'
    exact Option.some.inj hfiled'
  · obtain ⟨hlive, hkey⟩ := (hs.filed k e).mp hk
    refine ⟨hlive, ?_⟩
    rw [hs.guard e hlive.1] at hkey ⊢
    exact congrArg (InFlightGuard.mk · e) hkey
  · -- its ticket is from before the notification
    have hfits := hs.fits f
    rw [State.Parked] at hparked
    rw [hparked] at hfits
    have hone := ((hs.point e he.1).of_finished he.2).1
    rw [hfits.2] at hone
    cases hone

/-- A guard is made, a follower parks, and the guard completes. -/
def woken : List (Label Nat) :=
  [.tryLead 0 ⟨1, 1, ⟨1, []⟩⟩, .tryLead 1 ⟨1, 1, ⟨1, []⟩⟩, .follow 0, .follow 0,
    .call 0 (.complete 7 [] 1), .guard 0, .guard 0, .guard 0, .guard 0, .guard 0]

/-- The follower that was waiting is not parked when the guard's operation is over. -/
theorem follower_woken :
    ∃ s, Trans.run State.step .init woken = some s ∧ s.Finished 0 ∧
      s.followers 0 = .parked 0 0 ∧ ¬s.Parked 0 0 := by
  obtain ⟨s, hs⟩ : ∃ s, Trans.run State.step .init woken = some s := ⟨_, rfl⟩
  have hfacts : s.Finished 0 ∧ s.followers 0 = .parked 0 0 := by
    cases hs
    exact ⟨⟨by decide, nofun, rfl⟩, rfl⟩
  exact ⟨s, hs, hfacts.1, hfacts.2, (registry_protocol hs).2.2.2.2.2.2 0 0 hfacts.1⟩

end Protocol

end Picante

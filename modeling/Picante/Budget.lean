/-
# What an access may still cost

An access goes round in a loop: notified, overtaken by another access to its key, or found to be at
a revision that has passed, it starts again.  What it may still do is bounded by what it holds in
tokens, and every step of it costs one of them.

* `Pc.stage` -- how far it is from its result, if nothing disturbs it.
* `Activation.UpToDate` -- what it has seen is still so; if not, it may go round once more.
* `Pc.stirs` -- how often it may still change what others with its key have seen.
* `Activation.Outdated` -- it is to start again at a new revision, or with a new leader.

A nested access is paid for by its caller, whose key is above its own (`costs_call`); an access that
stirs pays for the round that others with its key go (`Activation.tokens_le`); one that starts again
pays for all it may do then (`costs_renew`).
-/
import Picante.Coherence.Native
import Picante.Filing
import Mathlib.Algebra.Order.Group.Multiset
import Mathlib.Tactic.Abel

namespace Picante

open Config Relation

variable {V : Type}

/-! ## 1. Tokens -/

/-- What an access to `key` holds. -/
structure Token (V : Type) where
  key : DynKey
  level : Nat
  prog : Option (Query V)
  count : Nat

/-- What is left of a program, where there is one. -/
def Shorter : Option (Query V) → Option (Query V) → Prop
  | some p', some p => p'.Rest p
  | _, _ => False

namespace Token

/-- For a call, for a lower level with the same key, or at the same level for less to do. -/
inductive Below (E : DynKey → DynKey → Prop) (y x : Token V) : Prop
  | call (h : E x.key y.key)
  | level (hkey : y.key = x.key) (h : y.level < x.level)
  | prog (hkey : y.key = x.key) (hlevel : y.level = x.level) (h : Shorter y.prog x.prog)
  | count (hkey : y.key = x.key) (hlevel : y.level = x.level) (hprog : y.prog = x.prog)
      (h : y.count < x.count)

/-- Another round. -/
def pass (q : DynKey) : Token V := ⟨q, 12, none, 0⟩

/-- A change that others notice. -/
def stir (q : DynKey) : Token V := ⟨q, 13, none, 0⟩

/-- Another start. -/
def renew (q : DynKey) : Token V := ⟨q, 14, none, 0⟩

end Token

theorem wellFounded_shorter : WellFounded (Shorter : Option (Query V) → _ → Prop) := by
  have hnone : Acc (Shorter : Option (Query V) → _ → Prop) none :=
    Acc.intro _ fun y hy => by cases y <;> cases hy
  refine ⟨fun x => ?_⟩
  cases x with
  | none => exact hnone
  | some p =>
    induction p using ReadProg.wellFounded_rest.induction with
    | _ p ih =>
      refine Acc.intro _ fun y hy => ?_
      cases y with
      | none => exact hnone
      | some p' => exact ih p' hy

/-- Where calls end, tokens do. -/
theorem Token.wellFounded_below {E : DynKey → DynKey → Prop} (hE : WellFounded fun d q => E q d) :
    WellFounded (Below (V := V) E) := by
  have hlex := WellFounded.prod_lex hE (WellFounded.prod_lex Nat.lt_wfRel.wf
    (WellFounded.prod_lex (wellFounded_shorter (V := V)) Nat.lt_wfRel.wf))
  refine Subrelation.wf ?_ (InvImage.wf (fun x : Token V => (x.key, x.level, x.prog, x.count)) hlex)
  rintro ⟨q', l', p', n'⟩ ⟨q, l, p, n⟩ h
  cases h with
  | call h => exact .left _ _ h
  | level hkey h =>
    obtain rfl : q' = q := hkey
    exact .right _ (.left _ _ h)
  | prog hkey hlevel h =>
    obtain rfl : q' = q := hkey
    obtain rfl : l' = l := hlevel
    exact .right _ (.right _ (.left _ _ h))
  | count hkey hlevel hprog h =>
    obtain rfl : q' = q := hkey
    obtain rfl : l' = l := hlevel
    obtain rfl : p' = p := hprog
    exact .right _ (.right _ (.right _ h))

/-! ## 2. What an access holds -/

/-- The operation changes what other accesses with the key have seen. -/
def MicroOp.stirs : MicroOp V → Bool
  | .setCell _ | .notifyCell | .notifyEntry => true
  | _ => false

namespace Pc

/-- How far an access is from its result, if what it has seen stays so. -/
def stage (q : DynKey) : Pc V → Token V
  | .top => ⟨q, 11, none, 0⟩
  | .listen => ⟨q, 10, none, 0⟩
  | .observe _ => ⟨q, 9, none, 0⟩
  | .parked _ => ⟨q, 8, none, 0⟩
  | .revalidate src rest => ⟨q, if src.isShared then 4 else 7, none, 2 * rest.length⟩
  | .touching src _ rest => ⟨q, if src.isShared then 4 else 7, none, 2 * rest.length + 1⟩
  | .reverify | .attempt => ⟨q, 6, none, 0⟩
  | .sharedGet _ => ⟨q, 5, none, 0⟩
  | .lead _ => ⟨q, 3, none, 0⟩
  | .computing _ p _ => ⟨q, 2, some p, 1⟩
  | .reading _ d k _ => ⟨q, 2, some (.read d k), 0⟩
  | .followReset _ => ⟨q, 1, none, 3⟩
  | .followListen _ => ⟨q, 1, none, 2⟩
  | .followRead _ _ => ⟨q, 1, none, 1⟩
  | .followParked _ _ => ⟨q, 1, none, 0⟩
  | .finishing ops => ⟨q, 0, none, ops.length⟩

/-- How often an access may still stir before it starts again. -/
def stirs : Pc V → Nat
  | .revalidate src _ | .touching src _ _ => if src.isShared then 3 else 4
  | .sharedGet _ | .lead _ | .computing .. | .reading .. | .followReset _ => 3
  | .followListen _ | .followRead _ _ | .followParked _ _ => 2
  | .finishing ops => ops.countP (·.stirs)
  | _ => 4

/-- What is being revalidated. -/
def source : Pc V → Option (Source V)
  | .revalidate src _ | .touching src _ _ => some src
  | _ => none

/-- The entry that is followed. -/
def leader : Pc V → Option EntryId
  | .followReset e | .followListen e | .followRead e _ | .followParked e _ => some e
  | _ => none

end Pc

/-- A computation can be started here. -/
def ErasedState.Startable (rev : Revision) (st : ErasedState V) : Prop :=
  (∃ r, st = .ready r ∧ r.verifiedAt ≠ rev) ∨ st = .vacant ∨
    ∃ e ver, st = .poisoned e ver ∧ ver ≠ rev

namespace Activation

/-- What the access goes by is still so. -/
def UpToDate (w : World V) (view : ViewId) (a : Activation V) : Prop :=
  match a.pc with
  | .observe seen | .parked seen => (w.cell view a.key).epoch = seen
  | .revalidate (.cell ..) _ | .touching (.cell ..) _ _ | .reverify =>
    ∃ r, w.state view a.key = .ready r ∧ r.verifiedAt ≠ a.rev
  | .attempt => (w.state view a.key).Startable a.rev
  | .followRead e seen | .followParked e seen => (w.registry.entries e).epoch = seen
  | _ => True

/-- The access will have to start again. -/
def Outdated (w : World V) (view : ViewId) (a : Activation V) : Prop :=
  (a.pc ≠ .top ∧ a.rev ≠ w.rev view) ∨
    ∃ e, a.pc.leader = some e ∧ (w.registry.entries e).state = .cancelled

open Classical in
/-- Another round, if what the access goes by has changed. -/
noncomputable def rounds (w : World V) (view : ViewId) (a : Activation V) : Multiset (Token V) :=
  if a.UpToDate w view then 0 else {.pass a.key}

open Classical in
/-- Another start, if there has to be one. -/
noncomputable def starts (w : World V) (view : ViewId) (a : Activation V) : Multiset (Token V) :=
  if a.Outdated w view then {.renew a.key} else 0

/-- **What an access holds.** -/
noncomputable def tokens (w : World V) (view : ViewId) (a : Activation V) : Multiset (Token V) :=
  {a.pc.stage a.key} + a.rounds w view + (.replicate a.pc.stirs (.stir a.key) + a.starts w view)

variable {w w' : World V} {view : ViewId} {a a' : Activation V}

theorem rounds_of (h : a.UpToDate w view) : a.rounds w view = 0 := if_pos h

theorem rounds_of_not (h : ¬ a.UpToDate w view) : a.rounds w view = {.pass a.key} := if_neg h

theorem rounds_le_pass : a.rounds w view ≤ {.pass a.key} := by
  unfold rounds
  split
  · exact Multiset.zero_le _
  · exact le_rfl

theorem rounds_le (hkey : a'.key = a.key) (h : a.UpToDate w view → a'.UpToDate w' view) :
    a'.rounds w' view ≤ a.rounds w view := by
  by_cases ha : a.UpToDate w view
  · rw [rounds_of (h ha)]
    exact Multiset.zero_le _
  · rw [rounds_of_not ha, ← hkey]
    exact rounds_le_pass

theorem starts_of (h : a.Outdated w view) : a.starts w view = {.renew a.key} := if_pos h

theorem starts_of_not (h : ¬ a.Outdated w view) : a.starts w view = 0 := if_neg h

theorem starts_le (hkey : a'.key = a.key) (h : a'.Outdated w' view → a.Outdated w view) :
    a'.starts w' view ≤ a.starts w view := by
  by_cases ha : a'.Outdated w' view
  · rw [starts_of ha, starts_of (h ha), hkey]
  · rw [starts_of_not ha]
    exact Multiset.zero_le _

end Activation

/-! ## 3. What others notice -/

/-- Nothing is to be noticed of the step but for the keys with `P`. -/
structure World.Stirred (P : DynKey → Prop) (w w' : World V) : Prop where
  rev : ∀ i, w'.rev i = w.rev i
  cell : ∀ i k, ¬ P k → w'.cell i k = w.cell i k
  epoch : ∀ e < w.registry.nextEntry, ¬ P (w.registry.entries e).key.query →
    (w'.registry.entries e).epoch = (w.registry.entries e).epoch
  cancelled : ∀ e < w.registry.nextEntry, (w'.registry.entries e).state = .cancelled →
    (w.registry.entries e).state = .cancelled

/-- Nobody notices anything. -/
abbrev World.Unstirred (w w' : World V) : Prop := w.Stirred (fun _ => False) w'

open Classical in
/-- The round that an access goes for those with its key. -/
noncomputable def bonus (P : DynKey → Prop) (a : Activation V) : Multiset (Token V) :=
  if P a.key then {.pass a.key} else 0

section others

variable {S : Schema V} {E : DynKey → DynKey → Prop} {P : DynKey → Prop} {w w' : World V}
  {view : ViewId} {a a' : Activation V}

theorem World.Same.unstirred (h : w.Same w') : w.Unstirred w' where
  rev := h.rev
  cell i k _ := h.cell i k
  epoch e _ _ := by rw [h.registry]
  cancelled e _ hs := by rwa [h.registry] at hs

theorem World.Unstirred.refl (w : World V) : w.Unstirred w := (World.Same.refl w).unstirred

/-- No cell is changed, no entry is notified or cancelled. -/
theorem World.Unstirred.of_views (hviews : w'.views = w.views)
    (hepoch : ∀ e < w.registry.nextEntry,
      (w'.registry.entries e).epoch = (w.registry.entries e).epoch)
    (hcancelled : ∀ e < w.registry.nextEntry, (w'.registry.entries e).state = .cancelled →
      (w.registry.entries e).state = .cancelled) : w.Unstirred w' where
  rev i := by rw [World.rev, hviews]; rfl
  cell i k _ := by rw [World.cell, hviews]; rfl
  epoch e he _ := hepoch e he
  cancelled := hcancelled

theorem Pc.Traced.leader {R : Registry V} {q : DynKey} {pc : Pc V} {e : EntryId}
    (h : pc.Traced S E R q) (he : pc.leader = some e) : R.Made e q := by
  cases pc <;> cases he <;> exact h

theorem Activation.Outdated.of_stirred (hs : w.Stirred P w') (ha : a.Traced S E w.registry)
    (h : a.Outdated w' view) : a.Outdated w view := by
  refine h.imp (fun ⟨hpc, hrev⟩ => ⟨hpc, by rwa [hs.rev] at hrev⟩) ?_
  rintro ⟨e, he, hstate⟩
  exact ⟨e, he, hs.cancelled e (ha.pc.leader he).1 hstate⟩

theorem Activation.UpToDate.stirred (hs : w.Stirred P w') (ha : a.Traced S E w.registry)
    (hkey : ¬ P a.key) (h : a.UpToDate w view) : a.UpToDate w' view := by
  have hcell := hs.cell view a.key hkey
  have hfollow : ∀ e, a.pc.leader = some e →
      (w'.registry.entries e).epoch = (w.registry.entries e).epoch := fun e he => by
    obtain ⟨hmade, hquery⟩ := ha.pc.leader he
    exact hs.epoch e hmade (by rwa [hquery])
  unfold UpToDate World.state at h ⊢
  rw [hcell]
  split <;> rename_i hpc <;> simp only [hpc] at h ⊢ <;> try exact h
  all_goals exact (hfollow _ (by rw [hpc]; rfl)).trans h

/-- **What another access holds after a step**: what it held before, and if something was to be
noticed for its key, another round. -/
theorem Activation.tokens_le (hs : w.Stirred P w') (ha : a.Traced S E w.registry) :
    a.tokens w' view ≤ a.tokens w view + bonus P a := by
  have hrounds : a.rounds w' view ≤ a.rounds w view + bonus P a := by
    unfold bonus
    split
    · exact rounds_le_pass.trans (Multiset.le_add_left _ _)
    · next hkey => simpa using rounds_le rfl fun h => h.stirred hs ha hkey
  have hstarts : a.starts w' view ≤ a.starts w view :=
    starts_le rfl fun h => h.of_stirred hs ha
  unfold tokens
  calc _ ≤ {a.pc.stage a.key} + (a.rounds w view + bonus P a) +
        (.replicate a.pc.stirs (.stir a.key) + a.starts w view) := by gcongr
    _ = _ := by abel

/-- A new entry is followed by nobody. -/
theorem World.Unstirred.lead (w : World V) (k : InFlightKey) (leader : ViewId) (calls : Nat) :
    w.Unstirred { w.modifyRegistry (·.lead k leader) with calls } := by
  have hold : ∀ e < w.registry.nextEntry, (w.registry.lead k leader).entries e =
      w.registry.entries e := fun e he => by
    simp [Registry.lead, Nat.ne_of_lt he]
  refine .of_views rfl (fun e he => ?_) fun e he hs => ?_
  · exact congrArg (·.epoch) (hold e he)
  · exact (congrArg (·.state) (hold e he)).symm.trans hs

/-- A result is not noticed before its followers are notified. -/
theorem World.Unstirred.setState (w : World V) (e : EntryId) {st : InFlightState V}
    (hst : st ≠ .cancelled) : w.Unstirred (w.modifyRegistry (·.setState e st)) := by
  refine .of_views rfl (fun e' _ => ?_) fun e' _ hs => ?_ <;> rcases eq_or_ne e' e with rfl | hne
  · simp [World.modifyRegistry, Registry.setState]
  · simp [World.modifyRegistry, Registry.setState, hne]
  · exact absurd (by simpa [World.modifyRegistry, Registry.setState] using hs) hst
  · simpa [World.modifyRegistry, Registry.setState, hne] using hs

/-- A notification is noticed by those that follow the entry, whose key it was made for. -/
theorem World.Stirred.notify (w : World V) (e : EntryId) :
    w.Stirred (fun k => k = (w.registry.entries e).key.query)
      (w.modifyRegistry (·.notify e)) where
  rev _ := rfl
  cell _ _ _ := rfl
  epoch e' _ hk := by
    have hne : e' ≠ e := by
      rintro rfl
      exact hk rfl
    simp [World.modifyRegistry, Registry.notify, hne]
  cancelled e' _ hs := by
    rcases eq_or_ne e' e with rfl | hne
    · simpa [World.modifyRegistry, Registry.notify] using hs
    · simpa [World.modifyRegistry, Registry.notify, hne] using hs

end others


/-! ## 4. What a step costs -/

/-- From `old` to `new` the token `x` is spent, and what is gained is below it. -/
def Pays (E : DynKey → DynKey → Prop) (old new : Multiset (Token V)) (x : Token V) : Prop :=
  ∃ t, (∀ y ∈ t, y.Below E x) ∧ new + {x} ≤ old + t

section pays

variable {E : DynKey → DynKey → Prop} {w w' : World V} {view : ViewId} {a a' : Activation V}

theorem Pc.stage_key (q : DynKey) (pc : Pc V) : (pc.stage q).key = q := by
  cases pc <;> rfl

theorem Pc.stage_level (q : DynKey) (pc : Pc V) : (pc.stage q).level < 12 := by
  cases pc <;> simp only [stage] <;> try split
  all_goals decide

theorem Pc.stage_below (q : DynKey) (pc : Pc V) {l : Nat} (hl : 12 ≤ l) :
    (pc.stage q).Below E ⟨q, l, none, 0⟩ :=
  .level (pc.stage_key q) (Nat.lt_of_lt_of_le (pc.stage_level q) hl)

theorem pass_below (q : DynKey) : (Token.pass q : Token V).Below E (.stir q) :=
  .level rfl (by decide : 12 < 13)

/-- Whatever an access holds without having to start again is below a start. -/
theorem Activation.tokens_below (ha : ¬ a.Outdated w view) {y : Token V}
    (hy : y ∈ a.tokens w view) : y.Below E (.renew a.key) := by
  unfold tokens at hy
  rw [starts_of_not ha, add_zero, Multiset.mem_add, Multiset.mem_add, Multiset.mem_singleton] at hy
  rcases hy with (rfl | hy) | hy
  · exact a.pc.stage_below _ (by decide)
  · rw [Multiset.mem_singleton.mp (Multiset.mem_of_le rounds_le_pass hy)]
    exact .level rfl (by decide : 12 < 14)
  · rw [Multiset.eq_of_mem_replicate hy]
    exact .level rfl (by decide : 13 < 14)

/-- **The access starts again.** -/
theorem pays_renew (hkey : a'.key = a.key) (ha : a.Outdated w view)
    (ha' : ¬ a'.Outdated w' view) :
    Pays E (a.tokens w view) (a'.tokens w' view) (.renew a.key) := by
  refine ⟨a'.tokens w' view, fun y hy => hkey ▸ a'.tokens_below ha' hy, ?_⟩
  rw [add_comm]
  refine Multiset.add_le_add_right ?_
  unfold Activation.tokens
  rw [Activation.starts_of ha]
  exact (Multiset.le_add_left _ _).trans (Multiset.le_add_left _ _)

/-- **The access stirs.** -/
theorem pays_stir (hkey : a'.key = a.key) (hstarts : a'.Outdated w' view → a.Outdated w view)
    (hstirs : a'.pc.stirs < a.pc.stirs) :
    Pays E (a.tokens w view) (a'.tokens w' view) (.stir a.key) := by
  refine ⟨{a'.pc.stage a.key} + a'.rounds w' view, fun y hy => ?_, ?_⟩
  · rcases Multiset.mem_add.mp hy with hy | hy
    · rw [Multiset.mem_singleton.mp hy]
      exact a'.pc.stage_below _ (by decide)
    · rw [Multiset.mem_singleton.mp (Multiset.mem_of_le Activation.rounds_le_pass hy), hkey]
      exact pass_below _
  · have hle : Multiset.replicate a'.pc.stirs (.stir a.key) + {.stir a.key} ≤
        Multiset.replicate a.pc.stirs (Token.stir a.key : Token V) := by
      rw [add_comm, Multiset.singleton_add, ← Multiset.replicate_succ]
      exact Multiset.replicate_le_replicate _ |>.mpr hstirs
    have hstarts' := Activation.starts_le hkey hstarts
    unfold Activation.tokens
    rw [hkey]
    calc _ = {a'.pc.stage a.key} + a'.rounds w' view +
          ((.replicate a'.pc.stirs (.stir a.key) + {.stir a.key}) + a'.starts w' view) := by abel
      _ ≤ {a'.pc.stage a.key} + a'.rounds w' view +
          (.replicate a.pc.stirs (.stir a.key) + a.starts w view) := by gcongr
      _ ≤ _ := by
        rw [add_comm]
        exact Multiset.add_le_add_right (Multiset.le_add_left _ _)

/-- **The access goes another round.** -/
theorem pays_pass (hkey : a'.key = a.key) (hstarts : a'.Outdated w' view → a.Outdated w view)
    (hstirs : a'.pc.stirs ≤ a.pc.stirs) (ha : ¬ a.UpToDate w view) (ha' : a'.UpToDate w' view) :
    Pays E (a.tokens w view) (a'.tokens w' view) (.pass a.key) := by
  refine ⟨{a'.pc.stage a.key}, fun y hy => ?_, ?_⟩
  · rw [Multiset.mem_singleton.mp hy]
    exact a'.pc.stage_below _ (by decide)
  · have hstarts' := Activation.starts_le hkey hstarts
    have hle : Multiset.replicate a'.pc.stirs (.stir a.key) ≤
        Multiset.replicate a.pc.stirs (Token.stir a.key : Token V) :=
      Multiset.replicate_le_replicate _ |>.mpr hstirs
    unfold Activation.tokens
    rw [hkey, Activation.rounds_of_not ha, Activation.rounds_of ha', add_zero]
    calc _ = {.pass a.key} + (.replicate a'.pc.stirs (.stir a.key) + a'.starts w' view) +
          {a'.pc.stage a.key} := by abel
      _ ≤ {.pass a.key} + (.replicate a.pc.stirs (.stir a.key) + a.starts w view) +
          {a'.pc.stage a.key} := by gcongr
      _ ≤ _ := by
        gcongr
        exact Multiset.le_add_left _ _

/-- **The access comes closer to its result.** -/
theorem pays_stage (hkey : a'.key = a.key) (hstarts : a'.Outdated w' view → a.Outdated w view)
    (hstirs : a'.pc.stirs ≤ a.pc.stirs) (hrounds : a.UpToDate w view → a'.UpToDate w' view)
    (hstage : (a'.pc.stage a.key).Below E (a.pc.stage a.key)) :
    Pays E (a.tokens w view) (a'.tokens w' view) (a.pc.stage a.key) := by
  refine ⟨{a'.pc.stage a.key}, fun y hy => Multiset.mem_singleton.mp hy ▸ hstage, ?_⟩
  have hstarts' := Activation.starts_le hkey hstarts
  have hrounds' := Activation.rounds_le hkey hrounds
  have hle : Multiset.replicate a'.pc.stirs (.stir a.key) ≤
      Multiset.replicate a.pc.stirs (Token.stir a.key : Token V) :=
    Multiset.replicate_le_replicate _ |>.mpr hstirs
  unfold Activation.tokens
  rw [hkey]
  calc _ = {a.pc.stage a.key} + a'.rounds w' view +
        (.replicate a'.pc.stirs (.stir a.key) + a'.starts w' view) + {a'.pc.stage a.key} := by abel
    _ ≤ _ := by gcongr

end pays

/-! ## 5. Every step has its price -/

/-- A step of an access costs a token, and if something is to be noticed of it for a key, one above
another round of the accesses to that key. -/
def Costs (E : DynKey → DynKey → Prop) (w w' : World V) (old new : Multiset (Token V)) : Prop :=
  ∃ x P, Pays E old new x ∧ w.Stirred P w' ∧ ∀ k, P k → (Token.pass k).Below E x

section steps

variable {S : Schema V} {E : DynKey → DynKey → Prop} {w w' : World V} {view : ViewId}
  {task : TaskId} {below : List (Activation V)} {a a' : Activation V} {pc' : Pc V}

theorem Pays.costs {old new : Multiset (Token V)} {x : Token V} (h : Pays E old new x)
    (hw : w.Unstirred w') : Costs E w w' old new :=
  ⟨x, _, h, hw, fun _ hk => hk.elim⟩

theorem Pays.stirs {old new : Multiset (Token V)} {q : DynKey} (h : Pays E old new (.stir q))
    (hw : w.Stirred (fun k => k = q) w') : Costs E w w' old new :=
  ⟨_, _, h, hw, fun _ hk => hk ▸ pass_below _⟩

/-- The access follows no cancelled entry, unless it did so before. -/
def FollowsOn (w w' : World V) (pc pc' : Pc V) : Prop :=
  ∀ e, pc'.leader = some e → (w'.registry.entries e).state = .cancelled →
    pc.leader = some e ∧ (w.registry.entries e).state = .cancelled

theorem FollowsOn.of_none {pc : Pc V} (h : pc'.leader = none) : FollowsOn w w' pc pc' := by
  intro e he
  rw [h] at he
  cases he

theorem FollowsOn.of_same {pc : Pc V} (h : pc'.leader = pc.leader)
    (hreg : w'.registry = w.registry) : FollowsOn w w' pc pc' := fun _ he hs =>
  ⟨h ▸ he, hreg ▸ hs⟩

@[simp] theorem Activation.pc_moveTo (pc : Pc V) : (a.moveTo pc).pc = pc := rfl

/-- An access that goes on has no new reason to start again. -/
theorem Activation.Outdated.of_moved (hpc : a.pc ≠ .top) (ha : a'.rev = a.rev)
    (hrev : w'.rev view = w.rev view) (hlead : FollowsOn w w' a.pc a'.pc)
    (h : a'.Outdated w' view) : a.Outdated w view := by
  rcases h with ⟨-, hne⟩ | ⟨e, he, hstate⟩
  · exact .inl ⟨hpc, hrev ▸ ha ▸ hne⟩
  · exact .inr ⟨e, hlead e he hstate⟩

/-- The access comes closer to its result. -/
theorem costs_closer (hw : w.Unstirred w') (hkey : a'.key = a.key) (hrev : a'.rev = a.rev)
    (hpc : a.pc ≠ .top) (hlead : FollowsOn w w' a.pc a'.pc) (hstirs : a'.pc.stirs ≤ a.pc.stirs)
    (hrounds : a.UpToDate w view → a'.UpToDate w' view)
    (hstage : (a'.pc.stage a.key).Below E (a.pc.stage a.key)) :
    Costs E w w' (a.tokens w view) (a'.tokens w' view) :=
  (pays_stage hkey (fun h => h.of_moved hpc hrev (hw.rev view) hlead) hstirs hrounds hstage).costs
    hw

/-- The access goes on, closer to its result. -/
theorem costs_stage (hw : w.Unstirred w') (hpc : a.pc ≠ .top) (hlead : FollowsOn w w' a.pc pc')
    (hstirs : pc'.stirs ≤ a.pc.stirs)
    (hrounds : a.UpToDate w view → (a.moveTo pc').UpToDate w' view)
    (hstage : (pc'.stage a.key).Below E (a.pc.stage a.key)) :
    Costs E w w' (a.tokens w view) ((a.moveTo pc').tokens w' view) :=
  costs_closer hw rfl rfl hpc hlead hstirs hrounds hstage

/-- The access goes another round. -/
theorem costs_pass (hw : w.Unstirred w') (hkey : a'.key = a.key) (hrev : a'.rev = a.rev)
    (hpc : a.pc ≠ .top) (hlead : FollowsOn w w' a.pc a'.pc) (hstirs : a'.pc.stirs ≤ a.pc.stirs)
    (hold : ¬ a.UpToDate w view) (hnew : a'.UpToDate w' view) :
    Costs E w w' (a.tokens w view) (a'.tokens w' view) :=
  (pays_pass hkey (fun h => h.of_moved hpc hrev (hw.rev view) hlead) hstirs hold hnew).costs hw

/-- The access stirs. -/
theorem costs_stir (hw : w.Stirred (fun k => k = a.key) w') (hkey : a'.key = a.key)
    (hrev : a'.rev = a.rev) (hpc : a.pc ≠ .top) (hlead : FollowsOn w w' a.pc a'.pc)
    (hstirs : a'.pc.stirs < a.pc.stirs) : Costs E w w' (a.tokens w view) (a'.tokens w' view) :=
  (pays_stir hkey (fun h => h.of_moved hpc hrev (hw.rev view) hlead) hstirs).stirs hw

/-- The access starts again. -/
theorem costs_renew (hw : w.Unstirred w') (ha : a.Outdated w view) :
    Costs E w w' (a.tokens w view) ((a.moveTo .top).tokens w' view) := by
  have hpays : Pays E (a.tokens w view) ((a.moveTo .top).tokens w' view) (.renew a.key) := by
    refine pays_renew rfl ha ?_
    rintro (⟨hne, -⟩ | ⟨e, he, -⟩)
    · exact hne rfl
    · cases he
  exact hpays.costs hw

theorem Pc.of_source {pc : Pc V} {src : Source V} (h : pc.source = some src) :
    (∃ rest, pc = .revalidate src rest) ∨ ∃ dep rest, pc = .touching src dep rest := by
  cases pc <;> cases h
  · exact .inl ⟨_, rfl⟩
  · exact .inr ⟨_, _, rfl⟩

/-- What an access holds while it revalidates. -/
theorem Pc.holds_of_source {pc : Pc V} {src : Source V} (h : pc.source = some src) (q : DynKey) :
    pc ≠ .top ∧ pc.stirs = (if src.isShared then 3 else 4) ∧
      (pc.stage q).level = if src.isShared then 4 else 7 := by
  rcases of_source h with ⟨rest, rfl⟩ | ⟨dep, rest, rfl⟩ <;>
    exact ⟨fun h => (by cases h), rfl, rfl⟩

theorem stage_below_of_level {q : DynKey} {pc : Pc V}
    (h : (pc'.stage q).level < (pc.stage q).level) : (pc'.stage q).Below E (pc.stage q) :=
  .level (by rw [Pc.stage_key, Pc.stage_key]) h

/-- What follows a revalidation. -/
theorem costs_afterRevalidation {src : Source V} (hw : w.Same w') (hsrc : a.pc.source = some src)
    (b : Bool) : Costs E w w' (a.tokens w view)
      ((a.moveTo (afterRevalidation view a.rev src b)).tokens w' view) := by
  obtain ⟨htop, hstirs, hlevel⟩ := Pc.holds_of_source hsrc a.key
  cases src with
  | cell deps ch f =>
    have hold : ∀ h : a.UpToDate w view,
        ∃ r, w'.state view a.key = .ready r ∧ r.verifiedAt ≠ a.rev := fun h => by
      rw [hw.state view a.key]
      rcases Pc.of_source hsrc with ⟨rest, hpc⟩ | ⟨dep, rest, hpc⟩ <;>
        simpa [Activation.UpToDate, hpc] using h
    have hlower : 6 < (a.pc.stage a.key).level := hlevel ▸ (by decide : 6 < 7)
    cases b with
    | true =>
      exact costs_stage hw.unstirred htop (.of_none rfl) hstirs.ge hold
        (stage_below_of_level hlower)
    | false =>
      exact costs_stage hw.unstirred htop (.of_none rfl) hstirs.ge (fun h => .inl (hold h))
        (stage_below_of_level hlower)
  | shared F prev =>
    have hlower : 3 < (a.pc.stage a.key).level := hlevel ▸ (by decide : 3 < 4)
    cases b with
    | true =>
      exact costs_stage hw.unstirred htop (.of_none rfl) (hstirs ▸ Nat.le_succ 2)
        (fun _ => trivial) (stage_below_of_level (Nat.lt_of_le_of_lt (Nat.zero_le 3) hlower))
    | false =>
      exact costs_stage hw.unstirred htop (.of_none rfl) hstirs.ge (fun _ => trivial)
        (stage_below_of_level hlower)

/-- **The end of a touch.** -/
theorem Touched.costs {src : Source V} {dep : Dep} {rest : List Dep} {r : PicanteResult Revision}
    (ht : Touched w view a src rest r w' a')
    (hpc : a.pc = .revalidate src (dep :: rest) ∨ a.pc = .touching src dep rest) :
    Costs E w w' (a.tokens w view) (a'.tokens w' view) := by
  have hsrc : a.pc.source = some src := by rcases hpc with hpc | hpc <;> rw [hpc] <;> rfl
  obtain ⟨htop, hstirs, hlevel⟩ := Pc.holds_of_source hsrc a.key
  cases ht with
  | unchanged _ =>
    refine costs_stage (.refl w) htop (.of_none rfl) hstirs.ge (fun h => ?_) ?_
    · cases src with
      | cell deps ch f =>
        rcases hpc with hpc | hpc <;> simpa [Activation.UpToDate, Activation.moveTo, hpc] using h
      | shared F prev => trivial
    · rcases hpc with hpc | hpc <;> rw [hpc] <;> exact .count rfl rfl rfl (by simp [Pc.stage])
  | changed _ => exact costs_afterRevalidation (.logged w _) hsrc false
  | failed =>
    refine costs_stage (World.Same.logged w _).unstirred htop (.of_none rfl) (Nat.zero_le _)
      (fun _ => trivial) (stage_below_of_level ?_)
    rw [hlevel]
    simp only [Pc.stage]
    split <;> decide

variable [DecidableEq V]

/-- An access is overtaken only if what it went by has changed. -/
theorem not_upToDate_of_overtaken
    (h : stepActivation S w view task below a = some (w, .goto (a.moveTo .top)))
    (hpc : a.pc = .reverify ∨ a.pc = .attempt) : ¬ a.UpToDate w view := by
  intro hup
  rcases hpc with hpc | hpc <;> simp only [Activation.UpToDate, hpc] at hup <;>
    simp only [stepActivation, hpc] at h
  · obtain ⟨r, hs, -⟩ := hup
    simp [hs, Activation.moveTo] at h
  · rcases hup with ⟨r, hs, hne⟩ | hs | ⟨e, ver, hs, hne⟩
    · simp [hs, hne, Activation.moveTo] at h
    · simp [hs, Activation.moveTo] at h
    · simp [hs, hne, Activation.moveTo] at h

/-- A follower starts again only if its leader was cancelled. -/
theorem cancelled_of_followCancelled {e : EntryId} {seen : Nat}
    (h : stepActivation S w view task below a = some (w, .goto (a.moveTo .top)))
    (hpc : a.pc = .followRead e seen) : (w.registry.entries e).state = .cancelled := by
  simp only [stepActivation, hpc] at h
  cases hs : (w.registry.entries e).state with
  | cancelled => rfl
  | _ => simp [hs, Activation.moveTo] at h

/-- A follower wakes only if it was notified. -/
theorem notified_of_followWake {e : EntryId} {seen : Nat} {m : World V × Move V}
    (h : stepActivation S w view task below a = some m) (hpc : a.pc = .followParked e seen) :
    (w.registry.entries e).epoch ≠ seen := by
  simp only [stepActivation, hpc] at h
  split at h
  · cases h
  · next hne => exact hne

omit [DecidableEq V] in
/-- Nothing but the cell of the key is changed. -/
theorem World.Stirred.of_cell {q : DynKey} (hrev : ∀ i, w'.rev i = w.rev i)
    (hcell : ∀ i k, ¬ (i = view ∧ k = q) → w'.cell i k = w.cell i k)
    (hreg : w'.registry = w.registry) : w.Stirred (fun k => k = q) w' where
  rev := hrev
  cell i k hk := hcell i k fun h => hk h.2
  epoch e _ _ := by rw [hreg]
  cancelled e _ hs := by rwa [hreg] at hs

omit [DecidableEq V] in
/-- No cell is changed. -/
theorem World.Unstirred.of_cells (hrev : ∀ i, w'.rev i = w.rev i)
    (hcell : ∀ i k, w'.cell i k = w.cell i k) (hreg : w'.registry = w.registry) :
    w.Unstirred w' where
  rev := hrev
  cell i k _ := hcell i k
  epoch e _ _ := by rw [hreg]
  cancelled e _ hs := by rwa [hreg] at hs

/-- **What it costs an access to go on.** -/
theorem costs_goto (h : stepActivation S w view task below a = some (w', .goto a'))
    (ha : a.Traced S E w.registry) (hr : a.Regular S w.registry) (hfiling : w.registry.Filing) :
    Costs E w w' (a.tokens w view) (a'.tokens w' view) := by
  have hact : ActStep S w view task below a w' (.goto a') := actStep_of_step h
  have hrev := hact.fixed.rev
  have hother := fun i k => hact.cell_other (i := i) (k := k)
  have hpcOk := hr.pc
  cases hact with
  | top hpc =>
    have hpays : Pays E (a.tokens w view) (Activation.tokens w view
        { a with rev := w.rev view, pc := .listen }) (a.pc.stage a.key) := by
      refine pays_stage rfl ?_ ?_ (fun _ => trivial) ?_
      · rintro (⟨-, hne⟩ | ⟨e, he, -⟩)
        · exact absurd rfl hne
        · cases he
      · simp [hpc, Pc.stirs]
      · exact stage_below_of_level (by simp [hpc, Pc.stage])
    exact hpays.costs (.refl w)
  | listen hpc =>
    exact costs_stage (.refl w) (by simp [hpc]) (.of_none rfl) (by simp [hpc, Pc.stirs])
      (fun _ => rfl) (stage_below_of_level (by simp [hpc, Pc.stage]))
  | hit hpc _ _ | poison hpc _ =>
    exact costs_stage (.refl w) (by simp [hpc]) (.of_none rfl) (Nat.zero_le _) (fun _ => trivial)
      (stage_below_of_level (by simp [hpc, Pc.stage]))
  | stale hpc hs hne =>
    exact costs_stage (.refl w) (by simp [hpc]) (.of_none rfl)
      (by simp [hpc, Pc.stirs, Source.isShared]) (fun _ => ⟨_, hs, hne⟩)
      (stage_below_of_level (by simp [hpc, Pc.stage, Source.isShared]))
  | retry hpc hs =>
    exact costs_stage (.refl w) (by simp [hpc]) (.of_none rfl) (by simp [hpc, Pc.stirs])
      (fun _ => .inr hs) (stage_below_of_level (by simp [hpc, Pc.stage]))
  | park hpc _ =>
    exact costs_stage (.refl w) (by simp [hpc]) (.of_none rfl) (by simp [hpc, Pc.stirs])
      (fun hup => by simpa [Activation.UpToDate, Activation.moveTo, hpc] using hup)
      (stage_below_of_level (by simp [hpc, Pc.stage]))
  | wake hpc hs =>
    exact costs_pass (.refl w) rfl rfl (by simp [hpc]) (.of_none rfl) (by simp [hpc, Pc.stirs])
      (by simpa [Activation.UpToDate, hpc] using hs) trivial
  | overtaken hpc =>
    exact costs_pass (.refl w) rfl rfl (by rcases hpc with hpc | hpc <;> simp [hpc]) (.of_none rfl)
      (by rcases hpc with hpc | hpc <;> simp [hpc, Pc.stirs])
      (not_upToDate_of_overtaken h hpc) trivial
  | accept hpc => exact costs_afterRevalidation (.logged w _) (by rw [hpc]; rfl) true
  | unregistered hpc _ => exact costs_afterRevalidation (.logged w _) (by rw [hpc]; rfl) false
  | touchInput hpc _ ht | touchInterned hpc _ _ ht => exact ht.costs (.inl hpc)
  | @touchMissing src dep rest hpc _ _ | @touchCycle src dep rest hpc _ _ =>
    refine costs_stage ((World.Same.logged w _).trans (.logged _ _)).unstirred (by simp [hpc])
      (.of_none rfl) (Nat.zero_le _) (fun _ => trivial) (stage_below_of_level ?_)
    cases src <;> simp [hpc, Pc.stage, Source.isShared]
  | reverify hpc _ =>
    exact costs_stir (.of_cell hrev hother rfl) rfl rfl (by simp [hpc]) (.of_none rfl)
      (by simp [hpc, Pc.stirs, MicroOp.stirs])
  | start hpc _ =>
    exact costs_stir (.of_cell hrev hother rfl) rfl rfl (by simp [hpc]) (.of_none rfl)
      (by simp [hpc, Pc.stirs])
  | sharedMiss hpc hlook _ =>
    have hw : w.Unstirred w' := by
      rcases hlook with rfl | rfl <;> exact .of_cells hrev (fun _ _ => rfl) rfl
    exact costs_stage hw (by simp [hpc]) (.of_none rfl) (by simp [hpc, Pc.stirs])
      (fun _ => trivial) (stage_below_of_level (by simp [hpc, Pc.stage]))
  | sharedHit hpc _ _ =>
    exact costs_stage (.of_cells hrev (fun _ _ => rfl) rfl) (by simp [hpc]) (.of_none rfl)
      (by rw [hpc]; exact Nat.le_succ 2) (fun _ => trivial)
      (stage_below_of_level (by simp [hpc, Pc.stage]))
  | sharedStale hpc _ _ =>
    exact costs_stage (.of_cells hrev (fun _ _ => rfl) rfl) (by simp [hpc]) (.of_none rfl)
      (by simp [hpc, Pc.stirs, Source.isShared]) (fun _ => trivial)
      (stage_below_of_level (by simp [hpc, Pc.stage, Source.isShared]))
  | follow hpc hf =>
    refine costs_stage (.refl w) (by simp [hpc]) (fun e he hs => ?_) (by simp [hpc, Pc.stirs])
      (fun _ => trivial) (stage_below_of_level (by simp [hpc, Pc.stage]))
    cases he
    exact absurd hs (hfiling.live _ _ hf)
  | lead hpc _ =>
    exact costs_closer (.lead ..) rfl rfl (by simp [hpc]) (.of_none rfl) (by simp [hpc, Pc.stirs])
      (fun _ => trivial) (stage_below_of_level (by simp [hpc, Pc.stage]))
  | followReset hpc =>
    exact costs_stir (.of_cell hrev hother rfl) rfl rfl (by simp [hpc])
      (.of_same (by rw [hpc]; rfl) rfl) (by simp [hpc, Pc.stirs])
  | followListen hpc =>
    exact costs_stage (.refl w) (by simp [hpc]) (.of_same (by rw [hpc]; rfl) rfl)
      (by simp [hpc, Pc.stirs]) (fun _ => rfl)
      (by rw [hpc]; exact .count rfl rfl rfl (by simp [Pc.stage]))
  | followPark hpc =>
    exact costs_stage (.refl w) (by simp [hpc]) (.of_same (by rw [hpc]; rfl) rfl)
      (by simp [hpc, Pc.stirs])
      (fun hup => by simpa [Activation.UpToDate, Activation.moveTo, hpc] using hup)
      (by rw [hpc]; exact .count rfl rfl rfl (by simp [Pc.stage]))
  | followDone hpc _ | followFailed hpc _ =>
    exact costs_stage (.refl w) (by simp [hpc]) (.of_none rfl) (by rw [hpc]; exact Nat.le_refl 2)
      (fun _ => trivial) (stage_below_of_level (by simp [hpc, Pc.stage]))
  | followCancelled hpc =>
    exact costs_renew (.refl w) (.inr ⟨_, by rw [hpc]; rfl, cancelled_of_followCancelled h hpc⟩)
  | followWake hpc =>
    exact costs_pass (.refl w) rfl rfl (by simp [hpc]) (.of_same (by rw [hpc]; rfl) rfl)
      (by simp [hpc, Pc.stirs])
      (by simpa [Activation.UpToDate, hpc] using notified_of_followWake h hpc) trivial
  | @finalize prev out deps hpc =>
    refine costs_stage (.refl w) (by simp [hpc]) (.of_none rfl) ?_ (fun _ => trivial)
      (stage_below_of_level (by simp [hpc, Pc.stage]))
    rw [hpc]
    cases out
    · exact Nat.le_refl 3
    · exact Nat.le_refl 3
  | readInput hpc _ | readInterned hpc _ _ =>
    exact costs_stage (.refl w) (by simp [hpc]) (.of_none rfl) (by simp [hpc, Pc.stirs])
      (fun _ => trivial) (by rw [hpc]; exact .prog rfl rfl ⟨_, _, _, rfl, rfl⟩)
  | readMissing hpc _ _ | readCycle hpc _ _ =>
    exact costs_stage (World.Same.logged w _).unstirred (by simp [hpc]) (.of_none rfl)
      (by simp [hpc, Pc.stirs]) (fun _ => trivial)
      (by rw [hpc]; exact .prog rfl rfl ⟨_, _, _, rfl, rfl⟩)
  | updateDeps hpc =>
    exact costs_stage (.of_cells hrev (by simp) rfl) (by simp [hpc]) (.of_none rfl)
      (by simp [hpc, Pc.stirs, MicroOp.stirs]) (fun _ => trivial)
      (by rw [hpc]; exact .count rfl rfl rfl (by simp [Pc.stage]))
  | putShared hpc =>
    exact costs_stage (.of_cells hrev (fun _ _ => rfl) rfl) (by simp [hpc]) (.of_none rfl)
      (by simp [hpc, Pc.stirs, MicroOp.stirs]) (fun _ => trivial)
      (by rw [hpc]; exact .count rfl rfl rfl (by simp [Pc.stage]))
  | unguarded hpc _ _ =>
    exact costs_stage (.refl w) (by simp [hpc]) (.of_none rfl)
      (by simp only [hpc, Pc.stirs, List.countP_cons]; exact Nat.le_add_right _ _)
      (fun _ => trivial)
      (by rw [hpc]; exact .count rfl rfl rfl (by simp [Pc.stage]))
  | @setEntry st ops g hpc hg =>
    have hst : st ≠ .cancelled := by
      rintro rfl
      rw [hpc] at hpcOk
      exact hpcOk _ (List.mem_cons_self ..) rfl
    exact costs_stage (.setState w g.entry hst) (by simp [hpc]) (.of_none rfl)
      (by simp [hpc, Pc.stirs, MicroOp.stirs]) (fun _ => trivial)
      (by rw [hpc]; exact .count rfl rfl rfl (by simp [Pc.stage]))
  | unregister hpc hg =>
    exact costs_closer (.of_views rfl (fun _ _ => rfl) fun _ _ hs => hs) rfl rfl (by simp [hpc])
      (.of_none rfl) (by simp [hpc, Pc.stirs, MicroOp.stirs]) (fun _ => trivial)
      (by rw [hpc]; exact .count rfl rfl rfl (by simp [Pc.stage]))
  | setCell hpc | notifyCell hpc =>
    exact costs_stir (.of_cell hrev hother rfl) rfl rfl (by simp [hpc]) (.of_none rfl)
      (by simp [hpc, Pc.stirs, MicroOp.stirs])
  | @notifyEntry ops g hpc hg =>
    have hw := World.Stirred.notify w g.entry
    rw [(ha.guard g hg).2] at hw
    exact costs_stir hw rfl rfl (by simp [hpc]) (.of_none rfl)
      (by simp [hpc, Pc.stirs, MicroOp.stirs])
  | restart hpc hne =>
    exact costs_renew (.refl w) (.inl ⟨by simp [hpc], fun h => hne h.symm⟩)

/-! ## 6. Nested accesses -/

omit [DecidableEq V] in
theorem Activation.tokens_key {y : Token V} (hy : y ∈ a.tokens w view) : y.key = a.key := by
  unfold tokens at hy
  rw [Multiset.mem_add, Multiset.mem_add, Multiset.mem_add, Multiset.mem_singleton] at hy
  rcases hy with (rfl | hy) | hy | hy
  · exact a.pc.stage_key _
  · rw [Multiset.mem_singleton.mp (Multiset.mem_of_le rounds_le_pass hy)]
    rfl
  · rw [Multiset.eq_of_mem_replicate hy]
    rfl
  · unfold starts at hy
    split at hy
    · rw [Multiset.mem_singleton.mp hy]
      rfl
    · exact absurd hy (Multiset.notMem_zero _)

omit [DecidableEq V] in
/-- What is called is paid for. -/
theorem Pays.gain {old new gain : Multiset (Token V)} {x : Token V} (h : Pays E old new x)
    (hgain : ∀ y ∈ gain, y.Below E x) : Pays E old (gain + new) x := by
  obtain ⟨t, ht, hle⟩ := h
  refine ⟨gain + t, fun y hy => (Multiset.mem_add.mp hy).elim (hgain y) (ht y), ?_⟩
  calc gain + new + {x} = gain + (new + {x}) := add_assoc ..
    _ ≤ gain + (old + t) := Multiset.add_le_add_left hle
    _ = old + (gain + t) := add_left_comm ..

omit [DecidableEq V] in
/-- What is given up needs not be paid for. -/
theorem Costs.lose {old new : Multiset (Token V)} (h : Costs E w w' old new)
    (lost : Multiset (Token V)) : Costs E w w' (lost + old) new := by
  obtain ⟨x, P, ⟨t, ht, hle⟩, hw, hP⟩ := h
  refine ⟨x, P, ⟨t, ht, hle.trans ?_⟩, hw, hP⟩
  rw [add_assoc]
  exact Multiset.le_add_left _ _

/-- What is called is a dependency on record, or what a computation reads. -/
theorem ActStep.called {child : DynKey} (h : ActStep S w view task below a w' (.call a' child))
    (hE : ∀ q d, S.MayCall q d → E q d) (ha : a.Traced S E w.registry)
    (hr : a.Regular S w.registry) : E a.key child := by
  have htraced := ha.pc
  have hregular := hr.pc
  cases h with
  | touchCall hpc hk _ =>
    rw [hpc] at htraced
    exact htraced.2 _ (List.mem_cons_self ..) hk
  | readCall hpc hk _ =>
    rw [hpc] at hregular
    exact hE _ _ ⟨hk, _, hregular⟩

/-- **What it costs to call**: the caller, whose key is above, pays for the nested access. -/
theorem costs_call {child : DynKey} (h : ActStep S w view task below a w' (.call a' child))
    (hcall : E a.key child) : w' = w ∧ Costs E w w' (a.tokens w view)
      ((Activation.enter child).tokens w view + a'.tokens w view) := by
  have hgain : ∀ y ∈ (Activation.enter child : Activation V).tokens w view,
      y.Below E (a.pc.stage a.key) := fun y hy =>
    .call (by rw [Pc.stage_key, Activation.tokens_key hy]; exact hcall)
  obtain ⟨rfl, hkey, hrev, hpc, hlead, hstirs, hrounds, hstage⟩ : w' = w ∧ a'.key = a.key ∧
      a'.rev = a.rev ∧ a.pc ≠ .top ∧ a'.pc.leader = none ∧ a'.pc.stirs ≤ a.pc.stirs ∧
        (a.UpToDate w view → a'.UpToDate w view) ∧
          (a'.pc.stage a.key).Below E (a.pc.stage a.key) := by
    cases h with
    | @touchCall src dep rest hpc _ _ =>
      refine ⟨rfl, rfl, rfl, by simp [hpc], rfl, by simp [hpc, Pc.stirs], fun hup => ?_, ?_⟩
      · cases src with
        | cell deps ch f => simpa [Activation.UpToDate, Activation.moveTo, hpc] using hup
        | shared F prev => trivial
      · rw [hpc]
        refine .count rfl rfl rfl ?_
        simp only [Pc.stage, Activation.moveTo, List.length_cons]
        omega
    | readCall hpc _ _ =>
      refine ⟨rfl, rfl, rfl, by simp [hpc], rfl, by simp [hpc, Pc.stirs], fun _ => trivial, ?_⟩
      rw [hpc]
      exact .count rfl rfl rfl Nat.zero_lt_one
  have hpays := pays_stage (E := E) hkey (fun h => h.of_moved hpc hrev rfl (.of_none hlead)) hstirs
    hrounds hstage
  exact ⟨rfl, (hpays.gain hgain).costs (.refl _)⟩

omit [DecidableEq V] in
/-- **What it costs to return**: the access gives up what it still holds. -/
theorem costs_return (a : Activation V) : Costs E w w (a.tokens w view) 0 := by
  refine Pays.costs (x := a.pc.stage a.key) ⟨0, fun y hy => absurd hy (Multiset.notMem_zero _), ?_⟩
    (.refl w)
  unfold Activation.tokens
  rw [add_zero, zero_add, add_assoc]
  exact Multiset.le_add_right _ _

omit [DecidableEq V] in
/-- **What it costs to go on with the result of a nested access.** -/
theorem Resumed.costs {p p' : Activation V} {r : AccessResult V} (h : Resumed w view p r w' p') :
    Costs E w w' (a.tokens w view + p.tokens w view) (p'.tokens w' view) := by
  cases h with
  | touched hpc ht => exact (ht.costs (.inr hpc)).lose _
  | @answered prev d k deps hpc =>
    have hcosts : Costs E w w (p.tokens w view) ((p.moveTo (.computing prev
        (k (r.map fun vc => some vc.1)) deps)).tokens w view) :=
      costs_stage (.refl w) (by simp [hpc]) (.of_none rfl)
        (by simp [hpc, Pc.stirs]) (fun _ => trivial)
        (by rw [hpc]; exact .prog rfl rfl ⟨_, _, _, rfl, rfl⟩)
    exact hcosts.lose _
  | idle _ =>
    have hreturn : Costs E w w (a.tokens w view) 0 := costs_return a
    obtain ⟨x, P, ⟨t, ht, hle⟩, hw, hP⟩ := hreturn
    refine ⟨x, P, ⟨t, ht, ?_⟩, hw, hP⟩
    rw [add_comm, add_right_comm]
    exact (Multiset.add_le_add_right (by simpa using hle))

end steps

end Picante

/-
# Copies of a database that changes meanwhile

`from_database` and `save_cache` do not read a database at once.  They read its revision, every
input ingredient under the lock of its map, and every cell under the lock of the cell, one after
another, and calls of `set` and `remove` go on in between.  A `Copying` is a database with such a
copy in progress: what is still to be read, and what was read so far.

It also keeps all entries that were ever stored in the database's slots, in their order
(`changes`): they are what the slots hold (`slots_are_latest`).  What the database has at a
revision `r` are the entries up to it (`upTo`).  A copy of a slot has them for good if no entry up
to `r` is stored in it afterwards (`taken_slots`, and `Timely` for the condition on a step).
-/
import Picante.Coherence.Native
import Picante.Persist.File
import Picante.Tables.Latest

namespace Picante

open Tables Config

variable {V : Type}

/-! ## 1. What a step does to the database -/

namespace Config

/-- What a step stores in a slot of the database. -/
def stored [DecidableEq V] (c : Config V) : Label V → Option (DynKey × InputEntry V)
  | .mutate view k v =>
    if view = 0 ∧ noChange (c.world.inputs 0) k v = false then some (k, ⟨v, c.world.rev 0 + 1⟩)
    else none
  | .advance n =>
    match c.mutators[n]? with
    | some ⟨0, k, v, .store r⟩ => some (k, ⟨v, r⟩)
    | _ => none
  | _ => none

/-- A call on the database has moved the revision to `r`, and has not stored its entry yet. -/
def Moved (c : Config V) (r : Revision) : Prop :=
  ∃ m ∈ c.mutators, m.view = 0 ∧ (m.pc = .diverge r ∨ m.pc = .store r)

/-- What a step does to the slots and the revision of the database.  A revision that is new to a
call is one that was reached in the step. -/
structure SourceStep [DecidableEq V] (c : Config V) (l : Label V) (c' : Config V) : Prop where
  inputs : c'.world.inputs 0 = match c.stored l with
    | some (k, e) => Function.update (c.world.inputs 0) k (some e)
    | none => c.world.inputs 0
  rev : c.world.rev 0 ≤ c'.world.rev 0
  stored : ∀ k e, c.stored l = some (k, e) →
    c.Moved e.changedAt ∨ c.world.rev 0 < e.changedAt ∧ e.changedAt ≤ c'.world.rev 0
  moved : ∀ r, c'.Moved r → c.Moved r ∨ c.world.rev 0 < r ∧ r ≤ c'.world.rev 0

section source

variable [DecidableEq V] {S : Schema V} {c c' : Config V} {l : Label V}

/-- Nothing is stored, the revision stays, and the calls are the same. -/
theorem SourceStep.of_idle (hl : c.stored l = none) (hin : c'.world.inputs 0 = c.world.inputs 0)
    (hrev : c.world.rev 0 ≤ c'.world.rev 0) (hm : c'.mutators = c.mutators) :
    SourceStep c l c' where
  inputs := by rw [hl]; exact hin
  rev := hrev
  stored k e he := by rw [hl] at he; cases he
  moved r hr := by
    unfold Moved at hr
    rw [hm] at hr
    exact .inl hr

/-- A whole call of `set` or `remove`. -/
theorem sourceStep_mutate {view : ViewId} {k : DynKey} {v : Option V}
    (hs : step S c (.mutate view k v) = some c') : SourceStep c (.mutate view k v) c' := by
  simp only [step] at hs
  split at hs <;> cases hs
  rcases eq_or_ne view 0 with rfl | hview
  · cases hno : noChange (c.world.inputs 0) k v with
    | true =>
      have hw : mutateWorld c.world 0 k v = c.world := if_pos hno
      rw [hw]
      exact .of_idle (by simp [stored, hno]) rfl (Nat.le_refl _) rfl
    | false =>
      have hstored : c.stored (.mutate 0 k v) = some (k, ⟨v, c.world.rev 0 + 1⟩) := by
        simp [stored, hno]
      have hbump : (c.world.modifyRuntime 0 (·.bumpRevision)).rev 0 = c.world.rev 0 + 1 :=
        (World.rev_modifyRuntime ..).trans (if_pos rfl)
      have hw : mutateWorld c.world 0 k v = ((c.world.modifyRuntime 0
          (·.bumpRevision)).markDivergent 0).storeInput 0 k v (c.world.rev 0 + 1) := by
        rw [← hbump]
        exact if_neg (by simp [hno])
      have hrev : (mutateWorld c.world 0 k v).rev 0 = c.world.rev 0 + 1 := by
        rw [hw, World.rev_storeInput, World.rev_markDivergent, hbump]
      refine ⟨?_, hrev ▸ Nat.le_succ _, fun k' e he => .inr ?_, fun r hr => .inl hr⟩
      · rw [hstored]
        show (mutateWorld c.world 0 k v).inputs 0 = _
        rw [hw, World.inputs_storeInput, if_pos rfl, World.inputs_markDivergent,
          World.inputs_modifyRuntime]
        rfl
      · rw [hstored] at he
        cases he
        exact ⟨Nat.lt_succ_self _, Nat.le_of_eq hrev.symm⟩
  · obtain ⟨hinputs, hrev⟩ : (mutateWorld c.world view k v).inputs 0 = c.world.inputs 0 ∧
        (mutateWorld c.world view k v).rev 0 = c.world.rev 0 := by
      unfold mutateWorld
      split
      · exact ⟨rfl, rfl⟩
      · rw [World.inputs_storeInput, if_neg hview.symm, World.inputs_markDivergent,
          World.inputs_modifyRuntime, World.rev_storeInput, World.rev_markDivergent,
          World.rev_modifyRuntime, if_neg hview.symm]
        exact ⟨rfl, rfl⟩
    exact .of_idle (by simp [stored, hview]) hinputs (Nat.le_of_eq hrev.symm) rfl

/-- A call of `set` or `remove` takes a step. -/
theorem sourceStep_advance {n : Nat} (hs : step S c (.advance n) = some c') :
    SourceStep c (.advance n) c' := by
  simp only [step] at hs
  cases hn : c.mutators[n]? with
  | none => simp [hn] at hs
  | some m =>
    simp only [hn] at hs
    cases hm : stepMutator c.world m with
    | none => simp [hm] at hs
    | some wm =>
      obtain ⟨w, m'⟩ := wm
      simp only [hm, Option.some.injEq] at hs
      subst hs
      -- only the call that takes the step can have moved the revision anew
      have hmoved : ∀ r, Moved { c with world := w, mutators := c.mutators.set n m' } r →
          c.Moved r ∨ m'.view = 0 ∧ (m'.pc = .diverge r ∨ m'.pc = .store r) := by
        rintro r ⟨m'', hmem, hr⟩
        rcases List.mem_or_eq_of_mem_set hmem with hmem | rfl
        · exact .inl ⟨m'', hmem, hr⟩
        · exact .inr hr
      have hmem : m ∈ c.mutators := List.mem_of_getElem? hn
      obtain ⟨view, k, v, pc⟩ := m
      cases pc with
      | check =>
        have hidle : c.stored (.advance n) = none := by
          cases view <;> simp [stored, hn]
        have hm' : w = c.world ∧ ∀ r, m'.pc ≠ .diverge r ∧ m'.pc ≠ .store r := by
          simp only [stepMutator] at hm
          split at hm <;> cases hm <;> exact ⟨rfl, fun r => ⟨by rintro ⟨⟩, by rintro ⟨⟩⟩⟩
        obtain ⟨rfl, hpc⟩ := hm'
        refine ⟨by rw [hidle], Nat.le_refl _, by simp [hidle], fun r hr => ?_⟩
        exact .inl ((hmoved r hr).resolve_right fun h => h.2.elim (hpc r).1 (hpc r).2)
      | bump =>
        cases hm
        have hidle : c.stored (.advance n) = none := by
          cases view <;> simp [stored, hn]
        refine ⟨?_, c.world.rev_le_bump view 0, by simp [hidle], fun r hr => ?_⟩
        · rw [hidle]
          exact World.inputs_modifyRuntime ..
        · refine (hmoved r hr).imp id ?_
          rintro ⟨rfl, h | h⟩
          · cases h
            refine ⟨?_, Nat.le_refl _⟩
            rw [World.rev_modifyRuntime, if_pos rfl]
            exact Nat.lt_succ_self _
          · cases h
      | diverge r' =>
        cases hm
        have hidle : c.stored (.advance n) = none := by
          cases view <;> simp [stored, hn]
        refine ⟨?_, Nat.le_of_eq (World.rev_markDivergent ..).symm, by simp [hidle],
          fun r hr => ?_⟩
        · rw [hidle]
          exact World.inputs_markDivergent ..
        · refine .inl ((hmoved r hr).elim id ?_)
          rintro ⟨hview, h | h⟩ <;> cases h
          exact ⟨_, hmem, hview, .inl rfl⟩
      | store r' =>
        cases hm
        have hrev : (c.world.storeInput view k v r').rev 0 = c.world.rev 0 :=
          World.rev_storeInput ..
        have hmoved' : ∀ r, Moved { c with
            world := c.world.storeInput view k v r'
            mutators := c.mutators.set n ⟨view, k, v, .done r'⟩ } r → c.Moved r := by
          intro r hr
          refine (hmoved r hr).resolve_right ?_
          rintro ⟨-, h | h⟩ <;> cases h
        rcases eq_or_ne view 0 with rfl | hview
        · have hstored : c.stored (.advance n) = some (k, ⟨v, r'⟩) := by
            simp [stored, hn]
          refine ⟨?_, Nat.le_of_eq hrev.symm, fun k' e he => .inl ?_,
            fun r hr => .inl (hmoved' r hr)⟩
          · rw [hstored]
            exact (World.inputs_storeInput ..).trans (if_pos rfl)
          · rw [hstored] at he
            cases he
            exact ⟨_, hmem, rfl, .inr rfl⟩
        · have hidle : c.stored (.advance n) = none := by
            cases view with
            | zero => exact absurd rfl hview
            | succ view => simp [stored, hn]
          refine ⟨?_, Nat.le_of_eq hrev.symm, by simp [hidle], fun r hr => .inl (hmoved' r hr)⟩
          rw [hidle]
          exact (World.inputs_storeInput ..).trans (if_neg hview.symm)
      | done r' => cases hm

/-- **What any step does to the slots and the revision of the database.** -/
theorem sourceStep (hs : step S c l = some c') : SourceStep c l c' := by
  cases l with
  | mutate view k v => exact sourceStep_mutate hs
  | advance n => exact sourceStep_advance hs
  | step t =>
    have hstep := taskStep_of_step hs
    refine .of_idle rfl (hstep.fixed.inputs 0) (Nat.le_of_eq (hstep.fixed.rev 0).symm) ?_
    cases hstep <;> rfl
  | drop t =>
    simp only [step, dropTask] at hs
    split at hs
    · cases hs
    · next a below _ =>
      split at hs <;> cases hs
      have hfixed := fixed_cancelGuards c.world (a :: below)
      exact .of_idle rfl (hfixed.inputs 0) (Nat.le_of_eq (hfixed.rev 0).symm) rfl
  | spawn view key want =>
    simp only [step] at hs
    split at hs <;> cases hs
    exact .of_idle rfl rfl (Nat.le_refl _) rfl
  | «begin» view key value =>
    simp only [step] at hs
    split at hs <;> cases hs
    refine ⟨rfl, Nat.le_refl _, fun _ _ h => (by cases h), fun r hr => .inl ?_⟩
    obtain ⟨m, hm, hview, hpc⟩ := hr
    rcases List.mem_append.mp hm with hm | hm
    · exact ⟨m, hm, hview, hpc⟩
    · obtain rfl := List.mem_singleton.mp hm
      rcases hpc with h | h <;> cases h
  | intern kind value =>
    cases hs
    exact .of_idle rfl rfl (Nat.le_refl _) rfl
  | bump view =>
    simp only [step] at hs
    split at hs <;> cases hs
    exact .of_idle rfl (World.inputs_modifyRuntime ..) (c.world.rev_le_bump view 0) rfl
  | snapshot =>
    cases hs
    refine .of_idle rfl ?_ (Nat.le_of_eq ?_) rfl
    · show c.world.snapshot.inputs 0 = c.world.inputs 0
      rw [World.inputs_snapshot]
      split <;> rfl
    · show c.world.rev 0 = c.world.snapshot.rev 0
      rw [World.rev_snapshot]
      split <;> rfl

end source

end Config

/-! ## 2. Copies -/

/-- What a copy reads in one step, under one lock. -/
inductive CopyOp where
  | revision
  | slots (kind : QueryKindId)
  | cell (k : DynKey)
  | ids (kind : QueryKindId)
  deriving DecidableEq, Repr

/-- A database that is being copied. -/
structure Copying (V : Type) where
  config : Config V
  /-- what was ever stored in the slots of the database -/
  changes : List (DynKey × InputEntry V)
  /-- what the copy has still to read -/
  remaining : List CopyOp
  /-- the revisions it has read -/
  revisions : List Revision
  /-- what else it has read -/
  taken : Database V

/-- Something happens to the database, or the copy goes on. -/
inductive CopyLabel (V : Type) where
  | base (l : Label V)
  | take

namespace Copying

/-- A new database; the copy is about to start. -/
def start (ops : List CopyOp) : Copying V :=
  { config := init, changes := [], remaining := ops, revisions := [], taken := World.init.database }

/-- Reads a part of the database; of a cell, what a snapshot keeps of it. -/
def read (s : Copying V) : CopyOp → Copying V
  | .revision => { s with revisions := s.revisions ++ [s.config.world.rev 0] }
  | .slots kind =>
    { s with taken := { s.taken with
        inputs := fun k => if k.kind = kind then s.config.world.inputs 0 k else s.taken.inputs k } }
  | .cell k =>
    { s with taken := { s.taken with
        cells := Function.update s.taken.cells k (s.config.world.cell 0 k).snapshot } }
  | .ids kind =>
    { s with taken := { s.taken with
        interned := Function.update s.taken.interned kind (s.config.world.interned kind) } }

/-- The transition function. -/
def step [DecidableEq V] (S : Schema V) (s : Copying V) : CopyLabel V → Option (Copying V)
  | .base l =>
    match Config.step S s.config l with
    | none => none
    | some c => some { s with config := c, changes := s.changes ++ (s.config.stored l).toList }
  | .take =>
    match s.remaining with
    | [] => none
    | op :: rest => some { s.read op with remaining := rest }

/-- The changes of a list that come up to a revision. -/
def upTo (r : Revision) (changes : List (DynKey × InputEntry V)) : List (DynKey × InputEntry V) :=
  changes.filter (·.2.changedAt ≤ r)

/-- An entry that is stored now with revision `r` is in time for the copy: as long as its slot is
still to be read, no smaller revision has been read, and once the slot was read no revision is still
to be read, and those that were are smaller. -/
def Timely (s : Copying V) (k : DynKey) (r : Revision) : Prop :=
  if .slots k.kind ∈ s.remaining then ∀ R ∈ s.revisions, r ≤ R
  else .revision ∉ s.remaining ∧ ∀ R ∈ s.revisions, R < r

instance (s : Copying V) (k : DynKey) (r : Revision) : Decidable (s.Timely k r) := by
  unfold Timely
  infer_instance

/-- What the step stores in a slot that is copied, it stores in time. -/
def StoresTimely [DecidableEq V] (ops : List CopyOp) (s : Copying V) : CopyLabel V → Prop
  | .base l => ∀ k e, s.config.stored l = some (k, e) → .slots k.kind ∈ ops →
      s.Timely k e.changedAt
  | .take => True

/-- A check of what a step stores. -/
def checkStores [DecidableEq V] (s : Copying V) : CopyLabel V → Bool
  | .base l => (s.config.stored l).all fun c => s.Timely c.1 c.2.changedAt
  | .take => true

theorem storesTimely_of_check [DecidableEq V] (ops : List CopyOp) {s : Copying V}
    {l : CopyLabel V} (h : s.checkStores l = true) : s.StoresTimely ops l := by
  cases l with
  | take => trivial
  | base l =>
    intro k e he _
    simp only [checkStores, he, Option.all_some] at h
    exact of_decide_eq_true h

section upTo

variable {r : Revision} {changes : List (DynKey × InputEntry V)}

/-- A change that comes later than `r`, or to another slot, makes no difference. -/
theorem latest_upTo_append {c : DynKey × InputEntry V} {k : DynKey}
    (h : k = c.1 → r < c.2.changedAt) :
    latest (upTo r (changes ++ [c])) k = latest (upTo r changes) k := by
  unfold upTo
  rw [List.filter_append, List.filter_cons, List.filter_nil]
  split
  · next hle =>
    rw [latest_append, Function.update_of_ne]
    exact fun hk => absurd (of_decide_eq_true hle) (Nat.not_le_of_lt (h hk))
  · rw [List.append_nil]

/-- Where all changes come up to `r`, the slot holds the last of them. -/
theorem latest_upTo_of_le {k : DynKey} (h : ∀ c ∈ changes, c.1 = k → c.2.changedAt ≤ r) :
    latest (upTo r changes) k = latest changes k :=
  latest_filter_of_forall fun c hc hk => decide_eq_true (h c hc hk)

theorem mem_upTo {c : DynKey × InputEntry V} :
    c ∈ upTo r changes ↔ c ∈ changes ∧ c.2.changedAt ≤ r := by
  simp [upTo]

end upTo

/-! ## 3. What a copy has -/

/-- The slots hold what was stored last, and nothing has a revision that was not reached. -/
structure Dated (s : Copying V) : Prop where
  slots : s.config.world.inputs 0 = latest s.changes
  changes : ∀ c ∈ s.changes, c.2.changedAt ≤ s.config.world.rev 0
  moved : ∀ r, s.config.Moved r → r ≤ s.config.world.rev 0
  revisions : ∀ R ∈ s.revisions, R ≤ s.config.world.rev 0

/-- The copy so far.  No entry of a slot that is still to be read comes later than a revision that
was read; a slot that was read was so up to every such revision, and as it is now as long as a
revision is still to be read. -/
structure Cut (ops : List CopyOp) (s : Copying V) : Prop where
  unread : ∀ k, .slots k.kind ∈ s.remaining → .slots k.kind ∈ ops → ∀ R ∈ s.revisions,
    ∀ c ∈ s.changes, c.1 = k → c.2.changedAt ≤ R
  fresh : ∀ k, .slots k.kind ∉ s.remaining → .slots k.kind ∈ ops → .revision ∈ s.remaining →
    s.taken.inputs k = latest s.changes k
  read : ∀ k, .slots k.kind ∉ s.remaining → .slots k.kind ∈ ops → ∀ R ∈ s.revisions,
    s.taken.inputs k = latest (upTo R s.changes) k

theorem dated_start (ops : List CopyOp) : (start ops : Copying V).Dated where
  slots := rfl
  changes _ hc := absurd hc List.not_mem_nil
  moved := by rintro r ⟨m, hm, -⟩; exact absurd hm List.not_mem_nil
  revisions _ hR := absurd hR List.not_mem_nil

theorem cut_start (ops : List CopyOp) : (start ops : Copying V).Cut ops where
  unread _ _ _ _ hR := absurd hR List.not_mem_nil
  fresh _ hno hops := absurd hops hno
  read _ hno hops := absurd hops hno

section steps

variable [DecidableEq V] {S : Schema V} {ops : List CopyOp} {s s' : Copying V}
  {l : CopyLabel V}

/-- A step of the database, as the copy sees it. -/
theorem step_base {l : Label V} (hs : s.step S (.base l) = some s') :
    ∃ c, Config.step S s.config l = some c ∧
      s' = { s with config := c, changes := s.changes ++ (s.config.stored l).toList } := by
  simp only [step] at hs
  split at hs
  · cases hs
  · next c hc => exact ⟨c, hc, (Option.some.inj hs).symm⟩

/-- The copy reads what is next. -/
theorem step_take (hs : s.step S .take = some s') :
    ∃ op rest, s.remaining = op :: rest ∧ s' = { s.read op with remaining := rest } := by
  simp only [step] at hs
  split at hs
  · cases hs
  · next op rest h => exact ⟨op, rest, h, (Option.some.inj hs).symm⟩

theorem Dated.step (h : s.Dated) (hs : s.step S l = some s') : s'.Dated := by
  cases l with
  | base l =>
    obtain ⟨c, hc, rfl⟩ := step_base hs
    have hsrc := sourceStep hc
    have hmoved : ∀ r, c.Moved r → r ≤ c.world.rev 0 := fun r hr =>
      (hsrc.moved r hr).elim (fun hr => Nat.le_trans (h.moved r hr) hsrc.rev) And.right
    have hold : ∀ e ∈ s.changes, e.2.changedAt ≤ c.world.rev 0 :=
      fun e he => Nat.le_trans (h.changes e he) hsrc.rev
    refine ⟨?_, ?_, hmoved, fun R hR => Nat.le_trans (h.revisions R hR) hsrc.rev⟩
    · show c.world.inputs 0 = latest (s.changes ++ (s.config.stored l).toList)
      rw [hsrc.inputs, h.slots]
      cases s.config.stored l with
      | none => simp
      | some ke => exact (latest_append ..).symm
    · intro e he
      rcases List.mem_append.mp he with he | he
      · exact hold e he
      · obtain ⟨k, e⟩ := e
        have hstored := Option.mem_toList.mp he
        rcases hsrc.stored k e hstored with hm | ⟨-, hle⟩
        · exact Nat.le_trans (h.moved _ hm) hsrc.rev
        · exact hle
  | take =>
    obtain ⟨op, rest, -, rfl⟩ := step_take hs
    cases op with
    | revision =>
      refine ⟨h.slots, h.changes, h.moved, fun R hR => ?_⟩
      rcases List.mem_append.mp hR with hR | hR
      · exact h.revisions R hR
      · exact Nat.le_of_eq (List.mem_singleton.mp hR)
    | slots kind => exact ⟨h.slots, h.changes, h.moved, h.revisions⟩
    | cell k => exact ⟨h.slots, h.changes, h.moved, h.revisions⟩
    | ids kind => exact ⟨h.slots, h.changes, h.moved, h.revisions⟩

omit [DecidableEq V] in
/-- An entry that is stored in time leaves what the copy has of the other slots, and of its own
once it was read. -/
theorem Cut.stored (h : s.Cut ops) (c : Config V) {k : DynKey} {e : InputEntry V}
    (htimely : .slots k.kind ∈ ops → s.Timely k e.changedAt) :
    Cut ops { s with config := c, changes := s.changes ++ [(k, e)] } := by
  constructor
  · intro k' hunread hops R hR c hc hk
    rcases List.mem_append.mp hc with hc | hc
    · exact h.unread k' hunread hops R hR c hc hk
    · obtain rfl := List.mem_singleton.mp hc
      obtain rfl : k = k' := hk
      have ht := htimely hops
      unfold Timely at ht
      rw [if_pos hunread] at ht
      exact ht R hR
  · intro k' hread hops hrev
    show s.taken.inputs k' = latest (s.changes ++ [(k, e)]) k'
    rw [latest_append, Function.update_of_ne]
    · exact h.fresh k' hread hops hrev
    · rintro rfl
      have ht := htimely hops
      unfold Timely at ht
      rw [if_neg hread] at ht
      exact ht.1 hrev
  · intro k' hread hops R hR
    show s.taken.inputs k' = latest (upTo R (s.changes ++ [(k, e)])) k'
    rw [latest_upTo_append]
    · exact h.read k' hread hops R hR
    · rintro rfl
      have ht := htimely hops
      unfold Timely at ht
      rw [if_neg hread] at ht
      exact ht.2 R hR

/-- **A step whose entry is stored in time keeps the copy a cut.** -/
theorem Cut.step (h : s.Cut ops) (hdated : s.Dated) (hs : s.step S l = some s')
    (hok : s.StoresTimely ops l) : s'.Cut ops := by
  cases l with
  | base l =>
    obtain ⟨c, -, rfl⟩ := step_base hs
    cases hst : s.config.stored l with
    | none =>
      rw [Option.toList_none, List.append_nil]
      exact ⟨h.unread, h.fresh, h.read⟩
    | some ke => exact h.stored c fun hops => hok ke.1 ke.2 hst hops
  | take =>
    obtain ⟨op, rest, hrem, rfl⟩ := step_take hs
    have hmem : ∀ {op'}, op' ∈ rest → op' ∈ s.remaining := fun h' => by
      rw [hrem]
      exact List.mem_cons_of_mem _ h'
    have hnot : ∀ {op'}, op' ∉ rest → op' ≠ op → op' ∉ s.remaining := fun h' hne hin => by
      rw [hrem] at hin
      exact (List.mem_cons.mp hin).elim hne h'
    cases op with
    | revision =>
      have hhere : CopyOp.revision ∈ s.remaining := by
        rw [hrem]
        exact List.mem_cons_self ..
      refine ⟨fun k hk hops R hR c hc hck => ?_, fun k hk hops hrev => ?_,
        fun k hk hops R hR => ?_⟩
      · rcases List.mem_append.mp hR with hR | hR
        · exact h.unread k (hmem hk) hops R hR c hc hck
        · obtain rfl := List.mem_singleton.mp hR
          exact hdated.changes c hc
      · exact h.fresh k (hnot hk nofun) hops hhere
      · rcases List.mem_append.mp hR with hR | hR
        · exact h.read k (hnot hk nofun) hops R hR
        · obtain rfl := List.mem_singleton.mp hR
          refine (h.fresh k (hnot hk nofun) hops hhere).trans ?_
          exact (latest_upTo_of_le fun c hc _ => hdated.changes c hc).symm
    | slots kind =>
      have hnow : ∀ k, k.kind = kind →
          (s.read (.slots kind)).taken.inputs k = latest s.changes k := by
        intro k hk
        rw [← hdated.slots]
        exact if_pos hk
      have hother : ∀ k, k.kind ≠ kind →
          (s.read (.slots kind)).taken.inputs k = s.taken.inputs k := fun k hk => if_neg hk
      refine ⟨fun k hk => h.unread k (hmem hk), fun k hk hops hrev => ?_,
        fun k hk hops R hR => ?_⟩
      · rcases eq_or_ne k.kind kind with heq | hne
        · exact hnow k heq
        · refine (hother k hne).trans (h.fresh k (hnot hk ?_) hops (hmem hrev))
          exact fun heq => hne (CopyOp.slots.inj heq)
      · rcases eq_or_ne k.kind kind with heq | hne
        · refine (hnow k heq).trans (latest_upTo_of_le fun c hc hck => ?_).symm
          refine h.unread k ?_ hops R hR c hc hck
          rw [hrem, heq]
          exact List.mem_cons_self ..
        · refine (hother k hne).trans (h.read k (hnot hk ?_) hops R hR)
          exact fun heq => hne (CopyOp.slots.inj heq)
    | cell k =>
      exact ⟨fun k hk => h.unread k (hmem hk),
        fun k hk hops hrev => h.fresh k (hnot hk nofun) hops (hmem hrev),
        fun k hk => h.read k (hnot hk nofun)⟩
    | ids kind =>
      exact ⟨fun k hk => h.unread k (hmem hk),
        fun k hk hops hrev => h.fresh k (hnot hk nofun) hops (hmem hrev),
        fun k hk => h.read k (hnot hk nofun)⟩

/-- **In every run that stores its entries in time**, the copy is a cut at the revisions it has
read. -/
theorem cut_of_run {ls : List (CopyLabel V)}
    (h : Trans.Steps (step S) (fun s l _ => s.StoresTimely ops l) (start ops) ls s) :
    s.Dated ∧ s.Cut ops :=
  h.invariant (I := fun s => s.Dated ∧ s.Cut ops) ⟨dated_start ops, cut_start ops⟩
    fun _ _ _ ⟨hd, hc⟩ hl hok => ⟨hd.step hl, hc.step hd hl hok⟩

end steps

end Copying

end Picante

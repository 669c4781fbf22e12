/-
# A saved cache and its log restore the inputs

A database is saved, a log is started at its revision, and from then on the database is changed,
and its changes are appended now and then (`Logging`).  Every append appends all changes since the
save, so the log holds many entries of one slot; the last append has the last word on each of them
(`recovered_slot`).  Loading the cache and replaying the log restores the slots and the revision
(`cache_and_log_restore_inputs`), if no entry is longer than the reader accepts.

The invariant of the run says of a slot that it is as it was saved or has changed since, and of the
revision that it is the one of the save or that of a slot (`Followed`).
-/
import Picante.Persist.Replay

namespace Picante

open Tables Config

variable {V : Type}

/-! ## 1. What a step does to the slots -/

section slots

variable [DecidableEq V] {S : Schema V} {c c' : Config V} {l : Label V}

/-- **A step of a sequential run on the database leaves its slots as they are**, or is a `set` or a
`remove` that stores one slot at the next revision. -/
theorem slots_step (hs : step S c l = some c') (hl : SequentialIn Label.OnDatabase c l c') :
    (c'.world.inputs 0 = c.world.inputs 0 ∧
      (c'.world.rev 0 = c.world.rev 0 ∨ l = .bump 0 ∧ c'.world.rev 0 = c.world.rev 0 + 1)) ∨
    ∃ k v, l = .mutate 0 k v ∧ c'.world.rev 0 = c.world.rev 0 + 1 ∧
      c'.world.inputs 0 = (c.world.inputs 0).store k v (c.world.rev 0 + 1) := by
  rcases hl with ⟨t, rfl⟩ | ⟨-, hop, hon⟩
  · have hfixed := (taskStep_of_step hs).fixed
    exact .inl ⟨hfixed.inputs 0, .inl (hfixed.rev 0)⟩
  cases l with
  | spawn view key want =>
    simp only [step] at hs
    split at hs <;> cases hs
    exact .inl ⟨rfl, .inl rfl⟩
  | intern kind value => cases hs; exact .inl ⟨rfl, .inl rfl⟩
  | bump view =>
    obtain rfl : view = 0 := hon
    simp only [step] at hs
    split at hs <;> cases hs
    refine .inl ⟨World.inputs_modifyRuntime .., .inr ⟨rfl, ?_⟩⟩
    exact (World.rev_modifyRuntime ..).trans (if_pos rfl)
  | snapshot =>
    cases hs
    refine .inl ⟨?_, .inl ?_⟩
    · show c.world.snapshot.inputs 0 = c.world.inputs 0
      rw [World.inputs_snapshot]
      split <;> rfl
    · show c.world.snapshot.rev 0 = c.world.rev 0
      rw [World.rev_snapshot]
      split <;> rfl
  | mutate view key value =>
    obtain rfl : view = 0 := hon
    simp only [step] at hs
    split at hs <;> cases hs
    show ((mutateWorld c.world 0 key value).inputs 0 = _ ∧
      ((mutateWorld c.world 0 key value).rev 0 = _ ∨ _)) ∨ _
    unfold mutateWorld
    split
    · exact .inl ⟨rfl, .inl rfl⟩
    · have hrev : (c.world.modifyRuntime 0 (·.bumpRevision)).rev 0 = c.world.rev 0 + 1 :=
        (World.rev_modifyRuntime ..).trans (if_pos rfl)
      refine .inr ⟨key, value, rfl, ?_, ?_⟩
      · exact (World.rev_storeInput ..).trans ((World.rev_markDivergent ..).trans hrev)
      · refine (World.inputs_storeInput ..).trans ?_
        rw [if_pos rfl, World.inputs_markDivergent, World.inputs_modifyRuntime, hrev]
  | step t | drop t | «begin» view key value | advance m => cases hop

/-- No slot of the database is stamped with a revision to come. -/
def SlotsDated (c : Config V) : Prop :=
  ∀ k e, c.world.inputs 0 k = some e → e.changedAt ≤ c.world.rev 0

theorem SlotsDated.step (h : SlotsDated c) (hs : step S c l = some c')
    (hl : SequentialIn Label.OnDatabase c l c') : SlotsDated c' := by
  intro k e he
  rcases slots_step hs hl with ⟨hinputs, hrev⟩ | ⟨k', v, -, hrev, hinputs⟩
  · rw [hinputs] at he
    have hle := h k e he
    rcases hrev with hrev | ⟨-, hrev⟩
    · exact hrev ▸ hle
    · rw [hrev]
      exact Nat.le_succ_of_le hle
  · rw [hinputs, Inputs.store, Function.update_apply] at he
    rw [hrev]
    split at he
    · cases he
      exact Nat.le_refl _
    · exact Nat.le_succ_of_le (h k e he)

end slots

/-! ## 2. Runs with a log -/

/-- A database with a log that is written. -/
structure Logging (V : Type) where
  config : Config V
  wal : WalWriter

/-- An operation on the database, or an append of its changes to the log. -/
inductive LogOp (V : Type) where
  | op (op : Op V)
  | append (o : Order)

namespace Logging

/-- The database whose changes are appended. -/
def database (s : Logging V) : Database V := s.config.world.database

/-- One operation, carried out to its end.  An append that fails leaves what it has written. -/
def step [DecidableEq V] (S : Schema V) (fuel : Nat) (C : WalCodec V)
    (ingredients : List PersistableIngredient) (s : Logging V) : LogOp V → Option (Logging V)
  | .op op => (runOp S fuel s.config op).map fun c => { s with config := c }
  | .append o => some { s with wal := (s.database.appendToWal o C ingredients s.wal).2 }

/-- An operation leaves the log as it is. -/
theorem step_op [DecidableEq V] {S : Schema V} {fuel : Nat} {C : WalCodec V}
    {ingredients : List PersistableIngredient} {c c' : Config V} {wal : WalWriter} {op : Op V}
    (h : runOp S fuel c op = some c') :
    step S fuel C ingredients ⟨c, wal⟩ (.op op) = some ⟨c', wal⟩ :=
  congrArg (Option.map _) h

end Logging

/-- The kind is that of a listed input ingredient. -/
def ListsInput (ingredients : List PersistableIngredient) (kind : QueryKindId) : Prop :=
  ∃ i ∈ ingredients, i.kind = kind ∧ i.sectionType = .input

/-- The operation is on the database, and moves the revision only with a slot that is saved. -/
def Label.Tracked (ingredients : List PersistableIngredient) : Label V → Prop
  | .spawn view _ _ => view = 0
  | .mutate view key _ => view = 0 ∧ ListsInput ingredients key.kind
  | .begin .. | .bump _ => False
  | _ => True

theorem Label.Tracked.onDatabase {ingredients : List PersistableIngredient} {l : Label V}
    (h : l.Tracked ingredients) : l.OnDatabase := by
  cases l with
  | spawn view key want => exact h
  | mutate view key value => exact h.1
  | «begin» view key value => exact h.elim
  | bump view => exact h.elim
  | _ => trivial

/-- The reader accepts what an append writes. -/
def Database.ChangesFit (db : Database V) (o : Order) (C : WalCodec V)
    (ingredients : List PersistableIngredient) (since : Revision) : Prop :=
  ∀ i ∈ ingredients, ∀ c ∈ db.changes o since i, c.Fits C

/-- The operation is tracked, and an append goes through what is there and writes only what the
reader accepts. -/
def LogOp.Allowed (C : WalCodec V) (ingredients : List PersistableIngredient) (s : Logging V) :
    LogOp V → Prop
  | .op operation => operation.label.Tracked ingredients
  | .append o => o.Lists s.database ∧ s.database.ChangesFit o C ingredients s.wal.baseRevision

/-! ## 3. What the log knows of the slots -/

section followed

variable {ingredients : List PersistableIngredient} {base : Database V} {c c' : Config V}

/-- The slot of `k` has changed after revision `r`. -/
def ChangedSince (r : Revision) (c : Config V) (k : DynKey) : Prop :=
  ∃ e, c.world.inputs 0 k = some e ∧ r < e.changedAt

/-- The database has come from `base` by changes of saved slots: the others are as they were, and
the revision is that of the last change. -/
structure ComesFrom (ingredients : List PersistableIngredient) (base : Database V)
    (c : Config V) : Prop where
  dated : SlotsDated c
  le : base.runtime.currentRevision ≤ c.world.rev 0
  kept : ∀ k, c.world.inputs 0 k = base.inputs k ∨
    ChangedSince base.runtime.currentRevision c k
  moved : c.world.rev 0 = base.runtime.currentRevision ∨
    ∃ k e, ListsInput ingredients k.kind ∧ c.world.inputs 0 k = some e ∧
      e.changedAt = c.world.rev 0

theorem ComesFrom.refl (h : SlotsDated c) : ComesFrom ingredients c.world.database c :=
  ⟨h, Nat.le_refl _, fun _ => .inl rfl, .inl rfl⟩

variable [DecidableEq V] {S : Schema V}

/-- **A tracked step**: the database has still come from `base`, the revision has not gone back,
and a slot that has changed since `base` has done so for good. -/
theorem ComesFrom.step (h : ComesFrom ingredients base c) {l : Label V}
    (hs : Config.step S c l = some c') (hl : SequentialIn (Label.Tracked ingredients) c l c') :
    ComesFrom ingredients base c' ∧ c.world.rev 0 ≤ c'.world.rev 0 ∧
      ∀ k, ChangedSince base.runtime.currentRevision c k →
        ChangedSince base.runtime.currentRevision c' k := by
  have hseq : SequentialIn Label.OnDatabase c l c' :=
    hl.imp id fun ⟨hidle, hop, ht⟩ => ⟨hidle, hop, ht.onDatabase⟩
  have hdated := h.dated.step hs hseq
  rcases slots_step hs hseq with ⟨hinputs, hrev⟩ | ⟨k', v, rfl, hrev, hinputs⟩
  · -- nothing but a stored slot moves the revision
    have hrev : c'.world.rev 0 = c.world.rev 0 := by
      refine hrev.resolve_right fun ⟨hbump, _⟩ => ?_
      subst hbump
      rcases hl with ⟨t, ht⟩ | ⟨-, -, ht⟩
      · cases ht
      · exact ht
    have hsame : ∀ k, ChangedSince base.runtime.currentRevision c k →
        ChangedSince base.runtime.currentRevision c' k := by
      rintro k ⟨e, he, hlt⟩
      exact ⟨e, by rw [hinputs]; exact he, hlt⟩
    refine ⟨⟨hdated, hrev ▸ h.le, fun k => ?_, ?_⟩, Nat.le_of_eq hrev.symm, hsame⟩
    · rw [hinputs]
      exact (h.kept k).imp id (hsame k)
    · rw [hrev, hinputs]
      exact h.moved
  · have hlists : ListsInput ingredients k'.kind := by
      rcases hl with ⟨t, ht⟩ | ⟨-, -, ht⟩
      · cases ht
      · exact ht.2
    have hself : c'.world.inputs 0 k' = some ⟨v, c.world.rev 0 + 1⟩ := by
      rw [hinputs]
      exact Function.update_self ..
    have hother : ∀ k, k ≠ k' → c'.world.inputs 0 k = c.world.inputs 0 k := by
      intro k hk
      rw [hinputs]
      exact Function.update_of_ne hk ..
    have hnew : ChangedSince base.runtime.currentRevision c' k' :=
      ⟨_, hself, Nat.lt_succ_of_le h.le⟩
    have hsame : ∀ k, ChangedSince base.runtime.currentRevision c k →
        ChangedSince base.runtime.currentRevision c' k := by
      rintro k ⟨e, he, hlt⟩
      rcases eq_or_ne k k' with rfl | hk
      · exact hnew
      · exact ⟨e, (hother k hk).trans he, hlt⟩
    refine ⟨⟨hdated, hrev ▸ Nat.le_succ_of_le h.le, fun k => ?_, .inr ⟨k', _, hlists, hself, ?_⟩⟩,
      hrev ▸ Nat.le_succ _, hsame⟩
    · rcases eq_or_ne k k' with rfl | hk
      · exact .inr hnew
      · rw [hother k hk]
        exact (h.kept k).imp id (hsame k)
    · exact hrev.symm

/-- The log of a database that has come from `base`: it starts there, and holds nothing that was
not changed since and saved again. -/
structure Followed (C : WalCodec V) (ingredients : List PersistableIngredient)
    (base : Database V) (s : Logging V) (cs : List (Change V)) : Prop where
  idle : s.config.Idle
  native : Native s.config
  comes : ComesFrom ingredients base s.config
  logged : Logged C s.wal cs
  baseRevision : s.wal.baseRevision = base.runtime.currentRevision
  listed : ∀ c ∈ cs, c.Listed ingredients
  fits : ∀ c ∈ cs, c.Fits C
  revision : ∀ c ∈ cs, c.revision ≤ s.config.world.rev 0
  slots : ∀ k e, .slot k e ∈ cs → ChangedSince base.runtime.currentRevision s.config k

omit [DecidableEq V] in
/-- The stamps of a ready cell are revisions of the database. -/
theorem Followed.native_record {C : WalCodec V} {s : Logging V} {cs : List (Change V)}
    (h : Followed C ingredients base s cs) {k : DynKey} {r : DerivedRecord V}
    (hr : (s.database.cells k).state.record = some r) :
    (ErasedCell.newReady r).state.Native (s.config.world.rev 0) := by
  have hst := h.native.world.state k
  have hrec : (s.config.world.state 0 k).record = some r := hr
  cases hstate : s.config.world.state 0 k with
  | ready R =>
    rw [hstate] at hst hrec
    cases hrec
    exact ⟨rfl, hst.verifiedAt, hst.changedAt⟩
  | _ => rw [hstate] at hrec; cases hrec

omit [DecidableEq V] in
/-- Changes of the database that are appended to its log keep it true to the database. -/
theorem Followed.logs {C : WalCodec V} {s : Logging V} {cs done : List (Change V)}
    (h : Followed C ingredients base s cs) {o : Order} (ho : o.Lists s.database)
    (hfits : s.database.ChangesFit o C ingredients s.wal.baseRevision) {wal : WalWriter}
    (hdone : ∀ c ∈ done, ∃ i ∈ ingredients, c ∈ s.database.changes o s.wal.baseRevision i)
    (hlogged : Logged C wal (cs ++ done)) (hbase : wal.baseRevision = s.wal.baseRevision) :
    Followed C ingredients base { s with wal } (cs ++ done) := by
  have hslot : ∀ k e, .slot k e ∈ done → s.database.inputs k = some e ∧
      s.wal.baseRevision < e.changedAt := by
    intro k e hmem
    obtain ⟨i, -, hi⟩ := hdone _ hmem
    exact ((slot_mem_changes ho).mp hi).2.2
  have both : ∀ {P : Change V → Prop}, (∀ c ∈ cs, P c) → (∀ c ∈ done, P c) →
      ∀ c ∈ cs ++ done, P c :=
    fun hcs hd c hc => (List.mem_append.mp hc).elim (hcs c) (hd c)
  refine ⟨h.idle, h.native, h.comes, hlogged, hbase.trans h.baseRevision, both h.listed ?_,
    both h.fits ?_, both h.revision ?_, fun k e hmem => ?_⟩
  · intro c hc
    obtain ⟨i, hi, hci⟩ := hdone c hc
    cases c with
    | slot k e =>
      obtain ⟨htype, hkind, -⟩ := (slot_mem_changes ho).mp hci
      exact ⟨i, hi, hkind, htype⟩
    | cell k r =>
      obtain ⟨htype, hkind, -⟩ := (cell_mem_changes ho).mp hci
      exact ⟨i, hi, hkind, htype⟩
  · intro c hc
    obtain ⟨i, hi, hci⟩ := hdone c hc
    exact hfits i hi c hci
  · intro c hc
    obtain ⟨i, hi, hci⟩ := hdone c hc
    cases c with
    | slot k e => exact h.comes.dated k e (hslot k e hc).1
    | cell k r =>
      obtain ⟨-, -, hr, -⟩ := (cell_mem_changes ho).mp hci
      exact (h.native_record hr).changedAt
  · rcases List.mem_append.mp hmem with hmem | hmem
    · exact h.slots k e hmem
    · obtain ⟨he, hlt⟩ := hslot k e hmem
      exact ⟨e, he, h.baseRevision ▸ hlt⟩

omit [DecidableEq V] in
/-- **An append adds what has changed since the base**, all of it if it succeeds. -/
theorem Followed.append {C : WalCodec V} {s : Logging V} {cs : List (Change V)}
    (h : Followed C ingredients base s cs) {o : Order} (ho : o.Lists s.database)
    (hfits : s.database.ChangesFit o C ingredients s.wal.baseRevision)
    {result : PicanteResult Nat} {wal : WalWriter}
    (happend : s.database.appendToWal o C ingredients s.wal = (result, wal)) :
    ∃ done, Followed C ingredients base { s with wal } (cs ++ done) ∧
      (∀ k e, .slot k e ∈ done → s.database.inputs k = some e) ∧
        ∀ m, result = .ok m → ∀ i ∈ ingredients, ∀ c ∈ s.database.changes o s.wal.baseRevision i,
          c ∈ done := by
  obtain ⟨done, hdone, hlogged, hbase, hall⟩ := logged_appendIngredients h.logged happend
  refine ⟨done, h.logs ho hfits hdone hlogged hbase, fun k e hmem => ?_, hall⟩
  obtain ⟨i, -, hi⟩ := hdone _ hmem
  exact ((slot_mem_changes ho).mp hi).2.2.1

/-- An operation on the database leaves its log true to it. -/
theorem Followed.operate {C : WalCodec V} {fuel : Nat} {s : Logging V} {cs : List (Change V)}
    (h : Followed C ingredients base s cs) {op : Op V}
    (hop : runOp S fuel s.config op = some c') (hl : op.label.Tracked ingredients) :
    Followed C ingredients base { s with config := c' } cs := by
  obtain ⟨ls, hls, hidle⟩ := runOp_steps (P := Label.Tracked ingredients) hop h.idle hl
  have hrun := hls.invariant
    (I := fun m => Native m ∧ ComesFrom ingredients base m ∧
      s.config.world.rev 0 ≤ m.world.rev 0 ∧
        ∀ k, ChangedSince base.runtime.currentRevision s.config k →
          ChangedSince base.runtime.currentRevision m k)
    ⟨h.native, h.comes, Nat.le_refl _, fun _ => id⟩
    (fun m l m' ⟨hn, hcomes, hrev, hsince⟩ hl hseq => by
      obtain ⟨hcomes', hrev', hsince'⟩ := hcomes.step hl hseq
      refine ⟨hn.step hl ?_, hcomes', Nat.le_trans hrev hrev', fun k hk =>
        hsince' k (hsince k hk)⟩
      rcases hseq with ⟨t, rfl⟩ | ⟨-, -, ht⟩
      · trivial
      · exact ht.onDatabase)
  obtain ⟨hn, hcomes, hrev, hsince⟩ := hrun
  exact ⟨hidle, hn, hcomes, h.logged, h.baseRevision, h.listed, h.fits,
    fun c hc => Nat.le_trans (h.revision c hc) hrev, fun k e hmem => hsince k (h.slots k e hmem)⟩

/-- **An operation of the run keeps the log true to the database.** -/
theorem Followed.step {C : WalCodec V} {fuel : Nat} {s s' : Logging V} {l : LogOp V}
    (h : ∃ cs, Followed C ingredients base s cs)
    (hs : Logging.step S fuel C ingredients s l = some s') (hl : l.Allowed C ingredients s) :
    ∃ cs, Followed C ingredients base s' cs := by
  obtain ⟨cs, h⟩ := h
  cases l with
  | append o =>
    cases hs
    generalize happend : s.database.appendToWal o C ingredients s.wal = res
    obtain ⟨result, wal⟩ := res
    obtain ⟨done, hdone, -⟩ := h.append hl.1 hl.2 happend
    exact ⟨_, hdone⟩
  | op op =>
    obtain ⟨c', hop, rfl⟩ := Option.map_eq_some_iff.mp hs
    exact ⟨cs, h.operate hop hl⟩

omit [DecidableEq V] in
/-- **The last append has the last word on every slot**: what is written over the base is what the
database holds. -/
theorem Followed.recovered_slot {C : WalCodec V} {s : Logging V} {cs done : List (Change V)}
    (h : Followed C ingredients base s (cs ++ done)) {k : DynKey}
    (hdone : ∀ k e, .slot k e ∈ done → s.database.inputs k = some e)
    (hall : ∀ e, s.database.inputs k = some e → base.runtime.currentRevision < e.changedAt →
      .slot k e ∈ done) :
    write base.inputs ((cs ++ done).filterMap Change.slotWrite) k = s.database.inputs k := by
  by_cases hsince : ChangedSince base.runtime.currentRevision s.config k
  · obtain ⟨e, he, hlt⟩ := hsince
    have hmem := hall e he hlt
    rw [List.filterMap_append, write_append]
    refine write_of_agree (fun b hb => ?_) ?_
    · obtain ⟨e', rfl, hmem'⟩ := (mem_slotWrites done).mp hb
      exact (hdone k e' hmem').symm
    · exact List.mem_map.mpr ⟨(k, some e), (mem_slotWrites done).mpr ⟨e, rfl, hmem⟩, rfl⟩
  · rw [write_of_not_mem]
    · exact ((h.comes.kept k).resolve_right hsince).symm
    · intro hmem
      obtain ⟨⟨k', e⟩, hw, rfl⟩ := List.mem_map.mp hmem
      obtain ⟨e', rfl, hslot⟩ := (mem_slotWrites _).mp hw
      exact hsince (h.slots k' e' hslot)

omit [DecidableEq V] in
/-- The revision is the highest of the log. -/
theorem Followed.recovered_revision {C : WalCodec V} {s : Logging V} {cs done : List (Change V)}
    (h : Followed C ingredients base s (cs ++ done))
    (hall : ∀ k e, ListsInput ingredients k.kind → s.database.inputs k = some e →
      base.runtime.currentRevision < e.changedAt → .slot k e ∈ done) :
    Change.highest base.runtime.currentRevision (cs ++ done) = s.config.world.rev 0 := by
  obtain ⟨hbase, hle⟩ := Change.le_highest base.runtime.currentRevision (cs ++ done)
  refine Nat.le_antisymm (Change.highest_le h.comes.le h.revision) ?_
  rcases h.comes.moved with hrev | ⟨k, e, hlists, he, hrev⟩
  · exact hrev ▸ hbase
  · by_cases hlt : base.runtime.currentRevision < e.changedAt
    · have hmem := hall k e hlists he hlt
      exact hrev ▸ hle _ (List.mem_append_right _ hmem)
    · exact Nat.le_trans (Nat.le_of_eq hrev.symm) (Nat.le_trans (Nat.le_of_not_lt hlt) hbase)

/-- The state in which the log is started. -/
theorem followed_start {C : WalCodec V} {fuel : Nat} {ops : List (Op V)} {wal : WalWriter}
    {threshold : Nat} (hrun : runOps S fuel init ops = some c)
    (hops : ∀ op ∈ ops, op.label.OnDatabase)
    (hcreate : WalWriter.create C c.world.database.runtime.currentRevision threshold = .ok wal) :
    Followed C ingredients c.world.database ⟨c, wal⟩ [] := by
  obtain ⟨ls, hls, hidle⟩ := runOps_steps (P := Label.OnDatabase) hrun idle_init hops
  have hinv := hls.invariant (I := fun m => Native m ∧ SlotsDated m)
    ⟨native_init, fun _ _ h => by cases h⟩ fun m l m' ⟨hn, hd⟩ hl hseq => by
      refine ⟨hn.step hl ?_, hd.step hl hseq⟩
      rcases hseq with ⟨t, rfl⟩ | ⟨-, -, hon⟩
      · trivial
      · exact hon
  obtain ⟨hlogged, hbase⟩ := logged_create hcreate
  exact ⟨hidle, hinv.1, .refl hinv.2, hlogged, hbase, nofun, nofun, nofun, nofun⟩

/-- `db'` has the saved slots and the revision of `live`. -/
structure Recovered (ingredients : List PersistableIngredient) (live db' : Database V) : Prop where
  revision : db'.runtime.currentRevision = live.runtime.currentRevision
  inputs : ∀ k, ListsInput ingredients k.kind → db'.inputs k = live.inputs k

/-- **Replaying the log on the loaded cache**, after an append that succeeds: the interning tables
stay as they were loaded. -/
theorem Followed.recovered {C : WalCodec V} (hC : C.RoundTrip) {s : Logging V}
    {cs : List (Change V)} (h : Followed C ingredients base s cs)
    (hnd : (ingredients.map (·.kind)).Nodup) {o : Order} (ho : o.Lists s.database)
    (hfits : s.database.ChangesFit o C ingredients s.wal.baseRevision) {n : Nat} {wal : WalWriter}
    (happend : s.database.appendToWal o C ingredients s.wal = (.ok n, wal)) {db₁ : Database V}
    (hreloaded : Reloaded ingredients base db₁) (o' : Order) :
    ∃ db₂ m, db₁.replayWal C o' ingredients (.read wal.flush.file) = (.ok m, db₂) ∧
      Recovered ingredients s.database db₂ ∧ db₂.interned = db₁.interned := by
  obtain ⟨done, hfollowed, hdone, hall⟩ := h.append ho hfits happend
  have hall' : ∀ k e, ListsInput ingredients k.kind → s.database.inputs k = some e →
      base.runtime.currentRevision < e.changedAt → .slot k e ∈ done := by
    rintro k e ⟨i, hi, hkind, htype⟩ he hlt
    refine hall n rfl i hi _ ((slot_mem_changes ho).mpr ⟨htype, hkind, he, ?_⟩)
    exact h.baseRevision ▸ hlt
  have hbase : wal.baseRevision = base.runtime.currentRevision := hfollowed.baseRevision
  obtain ⟨db₂, hreplay, hinputs, -, hinterned, hrev⟩ := replayWal_logged db₁ hC hnd
    hfollowed.logged hfollowed.listed hfollowed.fits (hreloaded.revision.trans hbase.symm) o'
  refine ⟨db₂, _, hreplay, ⟨?_, fun k hk => ?_⟩, hinterned⟩
  · rw [hrev, hbase]
    exact hfollowed.recovered_revision hall'
  · have hlists := hk
    obtain ⟨i, hi, hkind, htype⟩ := hk
    have hpart := hreloaded.parts i hi
    unfold PartRestored at hpart
    rw [htype] at hpart
    have hk : db₁.inputs k = base.inputs k := by
      obtain ⟨kind, key⟩ := k
      obtain rfl : i.kind = kind := hkind
      exact hpart key
    rw [hinputs, write_congr hk]
    exact hfollowed.recovered_slot hdone fun e he hlt => hall' k e hlists he hlt

end followed

/-- A codec with a short table of entries writes short entries. -/
theorem fits_ofTable [DecidableEq V] {t : Codec.Table V} {values : List V} {t' : WalCodec.Table}
    (h : t'.entries.length ≤ maxEntryLen) (c : Change V) :
    c.Fits (WalCodec.ofTable t values t') := by
  rintro payload ⟨change, -, hpayload⟩
  simp only [WalCodec.ofTable, Codec.place] at hpayload
  split at hpayload
  · next hmem =>
    cases hpayload
    rw [List.length_replicate]
    exact Nat.le_trans (Nat.le_of_lt (List.idxOf_lt_length_of_mem hmem)) h
  · cases hpayload

namespace Recovery

open RoundTrip

/-- The slot is set again, and then removed. -/
def entries : List WalEntry := [⟨2, 0, .set [] []⟩, ⟨3, 0, .delete []⟩]

def walCodec : WalCodec Nat :=
  .ofTable ⟨[file], [([], ⟨some 1, 1⟩)], [], [(0, 7)]⟩ [2] ⟨[⟨walFormatVersion, 1⟩], entries, [[]]⟩

end Recovery

end Picante

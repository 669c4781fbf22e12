/-
# A replay that fails

`replayWal` applies the entries of a log one by one, and stops at the first that cannot be read or
applied.  Those before it stay applied, while the revision is moved and the dependency graph rebuilt
only at the end.

What an entry writes does not depend on the database (`applyEntry_eq`), so the entries before a
failure are a list of effects (`replayEffects`), and a failed replay leaves the database with these
(`replayWal_error`).  It leaves the database as it was exactly when the database already holds what
they write last (`failed_replay_changes_nothing_iff`).
-/
import Picante.Persist.Torn
import Picante.Tables.Latest

namespace Picante

open Framing Tables

variable {V : Type}

/-! ## 1. Effects -/

/-- What applying an entry writes. -/
inductive Effect (V : Type) where
  | slot (key : DynKey) (e : InputEntry V)
  | cell (key : DynKey) (c : ErasedCell V)
  | value (kind : QueryKindId) (id : Nat) (v : V)
  /-- the entry that deletes an interned value -/
  | nothing

namespace Effect

/-- Writes it. -/
def apply [DecidableEq V] (db : Database V) : Effect V → Database V
  | .slot k e => { db with inputs := Function.update db.inputs k (some e) }
  | .cell k c => { db with cells := Function.update db.cells k c }
  | .value kind id v =>
    { db with interned := Function.update db.interned kind ((db.interned kind).replay id v) }
  | .nothing => db

/-- What is written to a slot. -/
def slotWrite : Effect V → Option (DynKey × InputEntry V)
  | .slot k e => some (k, e)
  | _ => none

/-- What is written to a cell. -/
def cellWrite : Effect V → Option (DynKey × ErasedCell V)
  | .cell k c => some (k, c)
  | _ => none

/-- What is filed in the interned table of a kind. -/
def filed (kind : QueryKindId) : Effect V → Option (Nat × V)
  | .value kind' id v => if kind' = kind then some (id, v) else none
  | _ => none

end Effect

/-- The effect of an entry on its ingredient. -/
def WalCodec.effect (C : WalCodec V) (i : PersistableIngredient) (revision : Revision)
    (keyBytes : Bytes) (valueBytes : Option Bytes) : PicanteResult (Effect V) :=
  match i.sectionType with
  | .input => do
    let key ← C.decodeKey i.kind keyBytes
    match valueBytes with
    | some bytes =>
      let v ← C.decodeValue i.kind bytes
      return .slot ⟨i.kind, key⟩ ⟨some v, revision⟩
    | none => return .slot ⟨i.kind, key⟩ ⟨none, revision⟩
  | .derived => do
    let key ← C.decodeKey i.kind keyBytes
    match valueBytes with
    | some bytes =>
      let (_, r) ← C.decodeDerived i.kind bytes
      return .cell ⟨i.kind, key⟩ (.newReady r)
    | none => return .cell ⟨i.kind, key⟩ .new
  | .interned =>
    match valueBytes with
    | some bytes => do
      let (id, v) ← C.decodeInterned i.kind bytes
      return .value i.kind id v
    | none => return .nothing

/-- The effect of an entry; none, if its kind is unknown. -/
def WalCodec.entryEffect (C : WalCodec V) (ingredients : List PersistableIngredient)
    (entry : WalEntry) : PicanteResult (Option (Effect V)) :=
  match ingredients.reverse.find? (·.kind = entry.kindId) with
  | none => .ok none
  | some i =>
    match entry.operation with
    | .set key value => (C.effect i entry.revision key (some value)).map some
    | .delete key => (C.effect i entry.revision key none).map some

/-- The effects of entries, up to the first that cannot be decoded. -/
def WalCodec.effects (C : WalCodec V) (ingredients : List PersistableIngredient) :
    List WalEntry → List (Effect V)
  | [] => []
  | entry :: entries =>
    match C.entryEffect ingredients entry with
    | .error _ => []
    | .ok none => C.effects ingredients entries
    | .ok (some effect) => effect :: C.effects ingredients entries

/-- The effects of a log that is replayed at a revision: of those entries that are read and decoded
before the first that is not. -/
def WalCodec.replayEffects (C : WalCodec V) (ingredients : List PersistableIngredient)
    (current : Revision) : FileRead → List (Effect V)
  | .notFound | .failed _ => []
  | .read bytes =>
    match C.openWal bytes with
    | .error _ => []
    | .ok (header, rest) =>
      if current ≠ header.baseRevision then []
      else C.effects ingredients (C.readEntries rest).1

section effects

variable [DecidableEq V] {C : WalCodec V} {ingredients : List PersistableIngredient}

theorem applyWalEntry_eq (db : Database V) (i : PersistableIngredient) (revision : Revision)
    (keyBytes : Bytes) (valueBytes : Option Bytes) :
    db.applyWalEntry C i revision keyBytes valueBytes =
      (C.effect i revision keyBytes valueBytes).map (Effect.apply db) := by
  unfold Database.applyWalEntry WalCodec.effect
  cases i.sectionType with
  | input =>
    simp only
    cases C.decodeKey i.kind keyBytes with
    | error e => rfl
    | ok key =>
      cases valueBytes with
      | none => rfl
      | some bytes =>
        simp only [bind, Except.bind]
        cases C.decodeValue i.kind bytes <;> rfl
  | derived =>
    simp only
    cases C.decodeKey i.kind keyBytes with
    | error e => rfl
    | ok key =>
      cases valueBytes with
      | none => rfl
      | some bytes =>
        simp only [bind, Except.bind]
        cases C.decodeDerived i.kind bytes <;> rfl
  | interned =>
    cases valueBytes with
    | none => rfl
    | some bytes =>
      simp only [bind, Except.bind]
      cases C.decodeInterned i.kind bytes <;> rfl

/-- **What an entry writes does not depend on the database.** -/
theorem applyEntry_eq (db : Database V) (entry : WalEntry) :
    db.applyEntry C ingredients entry =
      (C.entryEffect ingredients entry).map (Option.map (Effect.apply db)) := by
  unfold Database.applyEntry WalCodec.entryEffect
  cases ingredients.reverse.find? (·.kind = entry.kindId) with
  | none => rfl
  | some i =>
    simp only
    cases entry.operation with
    | set key value =>
      simp only [applyWalEntry_eq]
      cases C.effect i entry.revision key (some value) <;> rfl
    | delete key =>
      simp only [applyWalEntry_eq]
      cases C.effect i entry.revision key none <;> rfl

/-- **Entries that are applied leave their effects**, whether or not all of them can be applied. -/
theorem applyEntries_effects (db : Database V) (count : Nat) (maxRevision : Revision)
    (entries : List WalEntry) :
    (db.applyEntries C ingredients count maxRevision entries).2 =
      (C.effects ingredients entries).foldl Effect.apply db := by
  induction entries generalizing db count maxRevision with
  | nil => rfl
  | cons entry entries ih =>
    simp only [Database.applyEntries, WalCodec.effects, applyEntry_eq]
    cases C.entryEffect ingredients entry with
    | error e => rfl
    | ok effect =>
      cases effect with
      | none => exact ih ..
      | some effect => exact ih ..

/-- Whether entries can be applied does not depend on the database either. -/
theorem applyEntries_result (db db' : Database V) (count : Nat) (maxRevision : Revision)
    (entries : List WalEntry) :
    (db'.applyEntries C ingredients count maxRevision entries).1 =
      (db.applyEntries C ingredients count maxRevision entries).1 := by
  induction entries generalizing db db' count maxRevision with
  | nil => rfl
  | cons entry entries ih =>
    simp only [Database.applyEntries, applyEntry_eq]
    cases C.entryEffect ingredients entry with
    | error e => rfl
    | ok effect =>
      cases effect with
      | none => exact ih ..
      | some effect => exact ih ..

/-- The entries of a log leave their effects. -/
theorem replayEntries_effects (db : Database V) (count : Nat) (maxRevision : Revision)
    (bytes : Bytes) :
    (db.replayEntries C ingredients count maxRevision bytes).2 =
      (C.effects ingredients (C.readEntries bytes).1).foldl Effect.apply db := by
  rw [replayEntries_read, ← applyEntries_effects db count maxRevision]
  generalize db.applyEntries C ingredients count maxRevision (C.readEntries bytes).1 = applied
  obtain ⟨result, db₁⟩ := applied
  cases result with
  | error e => rfl
  | ok result => cases (C.readEntries bytes).2 <;> rfl

/-- And are replayed on any database or on none. -/
theorem replayEntries_result (db db' : Database V) (count : Nat) (maxRevision : Revision)
    (bytes : Bytes) :
    (db'.replayEntries C ingredients count maxRevision bytes).1 =
      (db.replayEntries C ingredients count maxRevision bytes).1 := by
  have hsame :
      (db'.applyEntries C ingredients count maxRevision (C.readEntries bytes).1).1 =
        (db.applyEntries C ingredients count maxRevision (C.readEntries bytes).1).1 :=
    applyEntries_result ..
  rw [replayEntries_read, replayEntries_read]
  generalize db.applyEntries C ingredients count maxRevision (C.readEntries bytes).1 = applied
    at hsame ⊢
  generalize db'.applyEntries C ingredients count maxRevision (C.readEntries bytes).1 = applied'
    at hsame ⊢
  obtain ⟨result, db₁⟩ := applied
  obtain ⟨result', db₁'⟩ := applied'
  obtain rfl : result' = result := hsame
  cases result' with
  | error e => rfl
  | ok result => cases (C.readEntries bytes).2 <;> rfl

/-- **A failed replay leaves the effects of what came before the failure**, and nothing else. -/
theorem replayWal_error {o : Order} {file : FileRead} {db db' : Database V} {e : PicanteError}
    (h : db.replayWal C o ingredients file = (.error e, db')) :
    db' = (C.replayEffects ingredients db.runtime.currentRevision file).foldl Effect.apply db := by
  unfold Database.replayWal at h
  unfold WalCodec.replayEffects
  cases file with
  | notFound => cases h
  | failed message => cases h; rfl
  | read bytes =>
    simp only at h ⊢
    cases hopen : C.openWal bytes with
    | error e' => rw [hopen] at h; cases h; rfl
    | ok p =>
      obtain ⟨header, rest⟩ := p
      simp only [hopen] at h ⊢
      by_cases hbase : db.runtime.currentRevision = header.baseRevision
      · rw [if_neg (not_not.mpr hbase)] at h ⊢
        rw [← replayEntries_effects db 0 header.baseRevision]
        generalize db.replayEntries C ingredients 0 header.baseRevision rest = replayed at h ⊢
        obtain ⟨result, db₁⟩ := replayed
        cases result <;> cases h
        rfl
      · rw [if_pos hbase] at h ⊢
        cases h
        rfl

end effects

/-! ## 2. What a database already holds -/

/-- Filing the pairs in order changes nothing: each id has the value and each value the id it is
filed with last, and no id is as high as the next one. -/
structure InternedIngredient.Holds [DecidableEq V] (t : InternedIngredient V)
    (ws : List (Nat × V)) : Prop where
  values : ∀ id v, latest ws id = some v → t.byId id = some v
  ids : ∀ v id, latest (ws.map Prod.swap) v = some id → t.byValue v = some id
  next : ∀ w ∈ ws, w.1 < t.nextId

/-- Every slot, cell and interned table holds what the effects write to it last. -/
structure Database.Holds [DecidableEq V] (db : Database V) (effects : List (Effect V)) : Prop where
  slots : ∀ k e, latest (effects.filterMap Effect.slotWrite) k = some e → db.inputs k = some e
  cells : ∀ k c, latest (effects.filterMap Effect.cellWrite) k = some c → db.cells k = c
  interned : ∀ kind, (db.interned kind).Holds (effects.filterMap (Effect.filed kind))

section holds

variable [DecidableEq V]

/-- The table after the pairs are filed. -/
theorem foldl_replay (t : InternedIngredient V) (ws : List (Nat × V)) :
    let t' := ws.foldl (fun t w => t.replay w.1 w.2) t
    t'.byId = write t.byId (ws.map fun w => (w.1, some w.2)) ∧
      t'.byValue = write t.byValue ((ws.map Prod.swap).map fun w => (w.1, some w.2)) ∧
      t.nextId ≤ t'.nextId ∧ (∀ w ∈ ws, w.1 < t'.nextId) ∧
      ((∀ w ∈ ws, w.1 < t.nextId) → t'.nextId = t.nextId) := by
  induction ws generalizing t with
  | nil => exact ⟨rfl, rfl, Nat.le_refl _, nofun, fun _ => rfl⟩
  | cons w ws ih =>
    obtain ⟨hvalues, hids, hle, hnext, hkeeps⟩ := ih (t.replay w.1 w.2)
    have hreplay : (t.replay w.1 w.2).nextId = if t.nextId ≤ w.1 then w.1 + 1 else t.nextId := rfl
    refine ⟨hvalues, hids, Nat.le_trans ?_ hle, ?_, ?_⟩
    · rw [hreplay]
      split <;> omega
    · intro w' hw'
      rcases List.mem_cons.mp hw' with rfl | hw'
      · refine Nat.lt_of_lt_of_le ?_ hle
        rw [hreplay]
        split <;> omega
      · exact hnext w' hw'
    · intro hlt
      have hw := hlt w (List.mem_cons_self ..)
      rw [if_neg (Nat.not_le_of_lt hw)] at hreplay
      rw [List.foldl_cons, hkeeps, hreplay]
      intro w' hw'
      rw [hreplay]
      exact hlt w' (List.mem_cons_of_mem _ hw')

/-- Filing pairs changes nothing exactly when the table holds them. -/
theorem foldl_replay_eq_iff (t : InternedIngredient V) (ws : List (Nat × V)) :
    ws.foldl (fun t w => t.replay w.1 w.2) t = t ↔ t.Holds ws := by
  obtain ⟨hvalues, hids, -, hnext, hkeeps⟩ := foldl_replay t ws
  constructor
  · intro h
    rw [h] at hvalues hids hnext
    exact ⟨write_some_eq_self_iff.mp hvalues.symm, write_some_eq_self_iff.mp hids.symm, hnext⟩
  · intro h
    have hvalues := hvalues.trans (write_some_eq_self_iff.mpr h.values)
    have hids := hids.trans (write_some_eq_self_iff.mpr h.ids)
    have hnext := hkeeps h.next
    generalize ws.foldl (fun t w => t.replay w.1 w.2) t = t' at hvalues hids hnext
    obtain ⟨nextId, byValue, byId⟩ := t'
    cases hvalues
    cases hids
    cases hnext
    rfl

/-- What effects leave of a database. -/
theorem foldl_apply (db : Database V) (effects : List (Effect V)) :
    let db' := effects.foldl Effect.apply db
    db'.inputs =
      write db.inputs ((effects.filterMap Effect.slotWrite).map fun w => (w.1, some w.2)) ∧
      db'.cells = write db.cells (effects.filterMap Effect.cellWrite) ∧
      (∀ kind, db'.interned kind = (effects.filterMap (Effect.filed kind)).foldl
        (fun t w => t.replay w.1 w.2) (db.interned kind)) ∧
      db'.runtime = db.runtime := by
  induction effects generalizing db with
  | nil => exact ⟨rfl, rfl, fun _ => rfl, rfl⟩
  | cons effect effects ih =>
    obtain ⟨hslots, hcells, hinterned, hruntime⟩ := ih (effect.apply db)
    cases effect with
    | slot k e => exact ⟨hslots, hcells, hinterned, hruntime⟩
    | cell k c => exact ⟨hslots, hcells, hinterned, hruntime⟩
    | nothing => exact ⟨hslots, hcells, hinterned, hruntime⟩
    | value kind id v =>
      refine ⟨hslots, hcells, fun kind' => (hinterned kind').trans ?_, hruntime⟩
      rw [List.filterMap_cons]
      simp only [Effect.apply, Effect.filed]
      by_cases hk : kind = kind'
      · subst hk
        rw [Function.update_self, if_pos rfl]
        rfl
      · rw [Function.update_of_ne (Ne.symm hk), if_neg hk]

/-- **Effects change nothing exactly when the database holds what they write last.** -/
theorem foldl_apply_eq_iff (db : Database V) (effects : List (Effect V)) :
    effects.foldl Effect.apply db = db ↔ db.Holds effects := by
  obtain ⟨hslots, hcells, hinterned, hruntime⟩ := foldl_apply db effects
  constructor
  · intro h
    rw [h] at hslots hcells hinterned
    exact ⟨write_some_eq_self_iff.mp hslots.symm, write_eq_self_iff.mp hcells.symm,
      fun kind => (foldl_replay_eq_iff ..).mp (hinterned kind).symm⟩
  · intro h
    have hslots := hslots.trans (write_some_eq_self_iff.mpr h.slots)
    have hcells := hcells.trans (write_eq_self_iff.mpr h.cells)
    have hinterned : (effects.foldl Effect.apply db).interned = db.interned :=
      funext fun kind => (hinterned kind).trans ((foldl_replay_eq_iff ..).mpr (h.interned kind))
    generalize effects.foldl Effect.apply db = db' at hslots hcells hinterned hruntime
    obtain ⟨⟨runtime, inputs, cells⟩, interned⟩ := db'
    cases hslots
    cases hcells
    cases hinterned
    cases hruntime
    rfl

/-- **A failed replay changes nothing exactly when** every slot, cell and interned table already
holds what the entries before the failure write to it last. -/
theorem failed_replay_changes_nothing_iff {C : WalCodec V} {o : Order}
    {ingredients : List PersistableIngredient} {file : FileRead} {db db' : Database V}
    {e : PicanteError} (h : db.replayWal C o ingredients file = (.error e, db')) :
    db' = db ↔
      db.Holds (C.replayEffects ingredients db.runtime.currentRevision file) := by
  rw [replayWal_error h]
  exact foldl_apply_eq_iff ..

end holds

/-! ### A log that ends in its second entry -/

namespace HalfReplayed

/-- The slot that the first entry stores. -/
def slot : DynKey := ⟨0, []⟩

/-- The slot is stored with 20 at revision 2. -/
def entry : WalEntry := ⟨2, 0, .set [] []⟩

/-- A codec for this entry. -/
def codec : WalCodec Nat := .ofTable ⟨[], [], [], []⟩ [20] ⟨[⟨walFormatVersion, 1⟩], [entry], [[]]⟩

/-- The log of two entries that follows revision 1, without the body of the second. -/
def file : FileRead :=
  .read (walMagic ++ frame walLengthBytes [] ++ frame walLengthBytes [] ++ leBytes walLengthBytes 1)

/-- The slots of one input ingredient are restored. -/
def ingredients : List PersistableIngredient := [⟨0, "slots", .input⟩]

/-- A database at revision 1 whose slot holds the entry. -/
def database (e : InputEntry Nat) : Database Nat where
  runtime := { Runtime.new 0 with currentRevision := 1 }
  inputs := Function.update (fun _ => none) slot (some e)
  cells _ := .new
  interned _ := .empty

/-- Nothing is listed. -/
def order : Order := ⟨fun _ => [], fun _ => [], fun _ => []⟩

theorem openWal_file : codec.openWal (walMagic ++ frame walLengthBytes [] ++
    frame walLengthBytes [] ++ leBytes walLengthBytes 1) =
      .ok (⟨walFormatVersion, 1⟩, frame walLengthBytes [] ++ leBytes walLengthBytes 1) := rfl

theorem readEntries_file :
    codec.readEntries (frame walLengthBytes [] ++ leBytes walLengthBytes 1) =
      ([entry], some (.cache ("Failed to read WAL entry: " ++ eofMessage))) := by
  have hfirst : codec.nextEntry (frame walLengthBytes [] ++ leBytes walLengthBytes 1) =
      .ok (some (entry, leBytes walLengthBytes 1)) := rfl
  have hsecond : codec.nextEntry (leBytes walLengthBytes 1) =
      .error (.cache ("Failed to read WAL entry: " ++ eofMessage)) := rfl
  rw [readEntries_cons hfirst, readEntries_error hsecond]

theorem effects_file :
    codec.replayEffects ingredients 1 file = [.slot slot ⟨some 20, 2⟩] := by
  simp only [file, WalCodec.replayEffects, openWal_file, readEntries_file]
  rfl

theorem replay_file (e : InputEntry Nat) : ∃ db',
    (database e).replayWal codec order ingredients file =
      (.error (.cache ("Failed to read WAL entry: " ++ eofMessage)), db') := by
  unfold Database.replayWal
  simp only [file, openWal_file, replayEntries_read, readEntries_file]
  exact ⟨_, rfl⟩

/-- **The replay fails at the second entry, and the first stays applied**, at a revision to come. -/
theorem first_entry_stays : ∃ db',
    (database ⟨some 10, 1⟩).replayWal codec order ingredients file =
      (.error (.cache ("Failed to read WAL entry: " ++ eofMessage)), db') ∧
      (database ⟨some 10, 1⟩).inputs slot = some ⟨some 10, 1⟩ ∧
      db'.inputs slot = some ⟨some 20, 2⟩ ∧ db'.runtime.currentRevision = 1 := by
  obtain ⟨db', h⟩ := replay_file ⟨some 10, 1⟩
  have heffects := replayWal_error h
  rw [show (database ⟨some 10, 1⟩).runtime.currentRevision = 1 from rfl, effects_file] at heffects
  subst heffects
  exact ⟨_, h, rfl, rfl, rfl⟩

/-- Where the slot holds the first entry already, the replay that fails changes nothing. -/
theorem held_entry_changes_nothing : ∃ db',
    (database ⟨some 20, 2⟩).replayWal codec order ingredients file =
      (.error (.cache ("Failed to read WAL entry: " ++ eofMessage)), db') ∧
      db' = database ⟨some 20, 2⟩ := by
  obtain ⟨db', h⟩ := replay_file ⟨some 20, 2⟩
  refine ⟨db', h, (failed_replay_changes_nothing_iff h).mpr ?_⟩
  rw [show (database ⟨some 20, 2⟩).runtime.currentRevision = 1 from rfl, effects_file]
  refine ⟨fun k e he => ?_, fun k c => nofun, fun kind =>
    ⟨fun id v => nofun, fun v id => nofun, nofun⟩⟩
  obtain ⟨rfl, rfl⟩ := Prod.mk.inj (List.mem_singleton.mp (mem_of_latest he))
  rfl

end HalfReplayed

end Picante

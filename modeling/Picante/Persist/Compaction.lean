/-
# Compaction that is interrupted

`compact_wal` saves the database in a temporary file, renames that over the cache, removes the old
log, and creates a new one.  If it stops between the rename and the removal, by a failure or a
crash, the new cache is next to the old log: their revisions differ, and the log is refused
(`compaction_is_not_crash_safe`).

That is the only point if all records are saved, and only if the old log starts from another
revision than the one saved.  A compaction within limits may drop the records of slots: a stop
before the rename then restores what the end of it does not, and so does an old log that writes such
a slot (`interrupted_compaction_recovers_iff`).
-/
import Picante.Persist.Failed
import Picante.Persist.Part

namespace Picante

open Tables Framing Config

variable {V : Type}

/-! ## 1. The files -/

/-- The cache, the temporary file of a compaction, and the log. -/
structure Disk where
  cache : Option Bytes
  temp : Option Bytes
  wal : Option Bytes
  deriving DecidableEq, Repr

/-- What reading a file gives. -/
def FileRead.of : Option Bytes → FileRead
  | none => .notFound
  | some bytes => .read bytes

/-- A step of `compact_wal` on the files. -/
inductive CompactStep where
  | writeTemp
  | renameTemp
  | removeWal
  | createWal
  deriving DecidableEq, Repr

/-- Carries out a step: `snapshot` is what is saved, and `log` the new log. -/
def CompactStep.run (snapshot log : Bytes) (d : Disk) : CompactStep → Disk
  | .writeTemp => { d with temp := some snapshot }
  | .renameTemp => { d with cache := d.temp, temp := none }
  | .removeWal => { d with wal := none }
  | .createWal => { d with wal := some log }

namespace Disk

/-- The steps of `compact_wal`: a log that does not exist is not removed. -/
def compactSteps (d : Disk) (createNewWal : Bool) : List CompactStep :=
  [.writeTemp, .renameTemp] ++ (if d.wal.isSome then [.removeWal] else []) ++
    (if createNewWal then [.createWal] else [])

/-- The files after the first `n` steps. -/
def compacted (d : Disk) (snapshot log : Bytes) (createNewWal : Bool) (n : Nat) : Disk :=
  ((d.compactSteps createNewWal).take n).foldl (CompactStep.run snapshot log) d

/-- The files when `compact_wal` stops after `n` steps: it crashes, or the next step fails; when the
rename fails, the temporary file is removed. -/
def stopped (d : Disk) (snapshot log : Bytes) (createNewWal : Bool) (n : Nat) (fails : Bool) :
    Disk :=
  if fails = true ∧ n = 1 then
    { d.compacted snapshot log createNewWal n with temp := none }
  else d.compacted snapshot log createNewWal n

/-- The files when `compact_wal` has run to its end. -/
def finished (d : Disk) (snapshot log : Bytes) (createNewWal : Bool) : Disk :=
  d.compacted snapshot log createNewWal (d.compactSteps createNewWal).length

/-- `load_cache` and `replay_wal` on a new database. -/
def restart [DecidableEq V] (C : WalCodec V) (o₁ o₂ : Order)
    (ingredients : List PersistableIngredient) (runtime : RuntimeId) (d : Disk) :
    PicanteResult (Database V) :=
  match (Database.new runtime).loadCache C.toCodec o₁ ingredients (.of d.cache) with
  | (.error e, _) => .error e
  | (.ok _, db) =>
    match db.replayWal C o₂ ingredients (.of d.wal) with
    | (.error e, _) => .error e
    | (.ok _, db) => .ok db

section files

variable (d : Disk) (snapshot log : Bytes) (createNewWal : Bool) (fails : Bool)

/-- The cache and the log of files that were left. -/
theorem stopped_files (n : Nat) :
    (d.stopped snapshot log createNewWal n fails).cache =
        (d.compacted snapshot log createNewWal n).cache ∧
      (d.stopped snapshot log createNewWal n fails).wal =
        (d.compacted snapshot log createNewWal n).wal := by
  unfold stopped
  split <;> exact ⟨rfl, rfl⟩

/-- Before the rename the cache and the log are the old ones. -/
theorem compacted_before {n : Nat} (hn : n < 2) :
    (d.compacted snapshot log createNewWal n).cache = d.cache ∧
      (d.compacted snapshot log createNewWal n).wal = d.wal := by
  rcases n with _ | _ | n
  · exact ⟨rfl, rfl⟩
  · exact ⟨rfl, rfl⟩
  · omega

/-- Between the rename and the removal the old log is next to the new cache. -/
theorem compacted_between :
    (d.compacted snapshot log createNewWal 2).cache = some snapshot ∧
      (d.compacted snapshot log createNewWal 2).wal = d.wal :=
  ⟨rfl, rfl⟩

/-- From then on there is the new log or none. -/
theorem compacted_after {n : Nat} (hn : 2 < n) :
    (d.compacted snapshot log createNewWal n).cache = some snapshot ∧
      ((d.compacted snapshot log createNewWal n).wal = none ∨
        (d.compacted snapshot log createNewWal n).wal = some log) := by
  obtain ⟨n, rfl⟩ : ∃ m, n = m + 3 := ⟨n - 3, by omega⟩
  obtain ⟨cache, temp, wal⟩ := d
  unfold compacted compactSteps
  cases wal with
  | none => cases createNewWal <;> simp [CompactStep.run]
  | some old =>
    cases createNewWal with
    | false => simp [CompactStep.run]
    | true => cases n <;> simp [CompactStep.run]

/-- Where there are two steps only, there is no log. -/
theorem length_compactSteps (h : (d.compactSteps createNewWal).length ≤ 2) :
    (d.compactSteps createNewWal).length = 2 ∧ d.wal = none := by
  obtain ⟨cache, temp, wal⟩ := d
  unfold compactSteps at h ⊢
  cases wal <;> cases createNewWal <;> simp at h ⊢

end files

end Disk

/-! ## 2. One log on two databases -/

section replay

variable [DecidableEq V] {C : WalCodec V} {o : Order} {ingredients : List PersistableIngredient}

/-- What a log that is replayed at a revision writes to slots, in order. -/
def WalCodec.slotWrites (C : WalCodec V) (ingredients : List PersistableIngredient)
    (current : Revision) (bytes : Bytes) : List (DynKey × InputEntry V) :=
  (C.replayEffects ingredients current (.read bytes)).filterMap Effect.slotWrite

/-- **A log that was replayed on a database is replayed on any other of its revision**, and writes
the same. -/
theorem replayWal_same (o' : Order) {bytes : Bytes} {db db' after : Database V} {n : Nat}
    (h : db.replayWal C o ingredients (.read bytes) = (.ok n, after))
    (hrev : db'.runtime.currentRevision = db.runtime.currentRevision) :
    ∃ after', db'.replayWal C o' ingredients (.read bytes) = (.ok n, after') ∧
      after'.inputs = write db'.inputs ((C.slotWrites ingredients db.runtime.currentRevision
        bytes).map fun w => (w.1, some w.2)) ∧
      after'.runtime.currentRevision = after.runtime.currentRevision := by
  unfold Database.replayWal at h ⊢
  unfold WalCodec.slotWrites WalCodec.replayEffects
  cases hopen : C.openWal bytes with
  | error e => simp [hopen] at h
  | ok opened =>
    obtain ⟨header, rest⟩ := opened
    simp only [hopen, hrev] at h ⊢
    split at h
    · cases h
    · next hbase =>
      rw [if_neg hbase, if_neg hbase]
      -- the same result, and the effects of the same entries
      have hresult :
          (db'.replayEntries C ingredients 0 header.baseRevision rest).1 =
            (db.replayEntries C ingredients 0 header.baseRevision rest).1 :=
        replayEntries_result ..
      have hleft : ∀ base : Database V,
          (base.replayEntries C ingredients 0 header.baseRevision rest).2 =
            (C.effects ingredients (C.readEntries rest).1).foldl Effect.apply base :=
        fun base => replayEntries_effects base ..
      obtain ⟨-, -, -, hrun⟩ := foldl_apply db (C.effects ingredients (C.readEntries rest).1)
      obtain ⟨hinputs, -, -, hrun'⟩ :=
        foldl_apply db' (C.effects ingredients (C.readEntries rest).1)
      rw [← hleft db] at hrun
      rw [← hleft db'] at hinputs hrun'
      generalize db.replayEntries C ingredients 0 header.baseRevision rest = r at *
      generalize db'.replayEntries C ingredients 0 header.baseRevision rest = r' at *
      obtain ⟨result, m⟩ := r
      obtain ⟨result', m'⟩ := r'
      obtain rfl : result' = result := hresult
      cases result' with
      | error e => cases h
      | ok cm =>
        obtain ⟨count, maxRevision⟩ := cm
        simp only [Prod.mk.injEq, Except.ok.injEq] at h
        obtain ⟨rfl, rfl⟩ := h
        refine ⟨_, rfl, ?_⟩
        split
        · obtain ⟨hext, -⟩ := Database.extends_restoreRuntimeState (o := o) ingredients
            { m with runtime := m.runtime.setCurrentRevision maxRevision }
          obtain ⟨hext', -⟩ := Database.extends_restoreRuntimeState (o := o') ingredients
            { m' with runtime := m'.runtime.setCurrentRevision maxRevision }
          rw [hext'.inputs, hext.revision, hext'.revision]
          exact ⟨hinputs, rfl⟩
        · obtain ⟨hext, -⟩ := Database.extends_restoreRuntimeState (o := o) ingredients m
          obtain ⟨hext', -⟩ := Database.extends_restoreRuntimeState (o := o') ingredients m'
          have hrun₂ : m.runtime = db.runtime := hrun
          have hrun₂' : m'.runtime = db'.runtime := hrun'
          rw [hext'.inputs, hext.revision, hext'.revision, hrun₂, hrun₂', hrev]
          exact ⟨hinputs, rfl⟩

/-- A log is refused by a database of another revision. -/
theorem replayWal_refused (o : Order) (ingredients : List PersistableIngredient)
    {bytes rest : Bytes} {header : WalHeader} {db : Database V}
    (hopen : C.openWal bytes = .ok (header, rest))
    (hrev : header.baseRevision ≠ db.runtime.currentRevision) :
    ∃ e, db.replayWal C o ingredients (.read bytes) = (.error e, db) := by
  unfold Database.replayWal
  simp only [hopen]
  rw [if_pos (Ne.symm hrev)]
  exact ⟨_, rfl⟩

/-- A log that is replayed can be opened, and starts from the revision of the database. -/
theorem openWal_of_replayed {bytes : Bytes} {db after : Database V} {n : Nat}
    (h : db.replayWal C o ingredients (.read bytes) = (.ok n, after)) :
    ∃ header rest, C.openWal bytes = .ok (header, rest) ∧
      db.runtime.currentRevision = header.baseRevision := by
  unfold Database.replayWal at h
  cases hopen : C.openWal bytes with
  | error e => simp [hopen] at h
  | ok opened =>
    obtain ⟨header, rest⟩ := opened
    refine ⟨header, rest, rfl, ?_⟩
    simp only [hopen] at h
    split at h
    · cases h
    · next hbase => exact not_not.mp hbase

end replay

/-! ## 3. After a restart -/

/-- The slots of the listed ingredients and the revision are the same. -/
structure SameInputs (ingredients : List PersistableIngredient) (db db' : Database V) : Prop where
  slots : ∀ k, ListsInput ingredients k.kind → db'.inputs k = db.inputs k
  revision : db'.runtime.currentRevision = db.runtime.currentRevision

theorem SameInputs.symm {ingredients : List PersistableIngredient} {db db' : Database V}
    (h : SameInputs ingredients db db') : SameInputs ingredients db' db :=
  ⟨fun k hk => (h.slots k hk).symm, h.revision.symm⟩

theorem Reloaded.sameInputs {ingredients : List PersistableIngredient} {db db' : Database V}
    (h : Reloaded ingredients db db') : SameInputs ingredients db db' := by
  refine ⟨?_, h.revision⟩
  rintro k ⟨i, hi, hkind, htype⟩
  have hpart := h.parts i hi
  unfold PartRestored at hpart
  rw [htype] at hpart
  obtain ⟨kind, key⟩ := k
  obtain rfl : i.kind = kind := hkind
  exact hpart key

section restart

variable [DecidableEq V] {C : WalCodec V} {o o₁ o₂ : Order}
  {ingredients : List PersistableIngredient}
  {options : CacheSaveOptions} {runtime : RuntimeId} {db : Database V} {d : Disk}
  {snapshot log : Bytes}

/-- The files restore the database, as far as its slots and its revision go. -/
def Disk.Restores (d : Disk) (C : WalCodec V) (o₁ o₂ : Order)
    (ingredients : List PersistableIngredient) (runtime : RuntimeId) (db : Database V) : Prop :=
  ∃ db', d.restart C o₁ o₂ ingredients runtime = .ok db' ∧ SameInputs ingredients db db'

/-- The temporary file is not read. -/
theorem Disk.restart_congr {d' : Disk} (hcache : d'.cache = d.cache) (hwal : d'.wal = d.wal) :
    d'.restart C o₁ o₂ ingredients runtime = d.restart C o₁ o₂ ingredients runtime := by
  unfold Disk.restart
  rw [hcache, hwal]

/-- A log that is restored from can be opened. -/
theorem Disk.Restores.opens (h : d.Restores C o₁ o₂ ingredients runtime db) {bytes : Bytes}
    (hbytes : d.wal = some bytes) : ∃ header rest, C.openWal bytes = .ok (header, rest) := by
  obtain ⟨after, hrestart, -⟩ := h
  unfold Disk.restart at hrestart
  rw [hbytes] at hrestart
  split at hrestart
  · cases hrestart
  · split at hrestart
    · cases hrestart
    · next hreplay =>
      obtain ⟨header, rest, hopen, -⟩ := openWal_of_replayed hreplay
      exact ⟨header, rest, hopen⟩

/-- What a compaction saves and creates. -/
structure Compacts (C : WalCodec V) (o : Order) (ingredients : List PersistableIngredient)
    (options : CacheSaveOptions) (db : Database V) (snapshot log : Bytes) : Prop where
  lists : o.Lists db
  inverse : ∀ kind, (db.interned kind).Inverse
  saved : db.saveCacheWithOptions o C.toCodec ingredients options = .ok snapshot
  created : ∃ threshold wal, WalWriter.create C db.runtime.currentRevision threshold = .ok wal ∧
    log = wal.flush.file

/-- The slots of the listed ingredients are those of the snapshot, and the revision is that of the
database it was saved from. -/
structure OfSnapshot (C : Codec V) (ingredients : List PersistableIngredient) (db : Database V)
    (snapshot : Bytes) (db' : Database V) : Prop where
  slots : ∀ k e, ListsInput ingredients k.kind →
    (db'.inputs k = some e ↔ FileHas C snapshot k e)
  revision : db'.runtime.currentRevision = db.runtime.currentRevision

/-- A limit has dropped the record of the slot. -/
def Dropped (C : Codec V) (ingredients : List PersistableIngredient) (db : Database V)
    (snapshot : Bytes) (k : DynKey) : Prop :=
  ListsInput ingredients k.kind ∧ ∃ e, db.inputs k = some e ∧ ¬ FileHas C snapshot k e

omit [DecidableEq V] in
theorem OfSnapshot.same {db₁ db₂ : Database V}
    (h₁ : OfSnapshot C.toCodec ingredients db snapshot db₁)
    (h₂ : OfSnapshot C.toCodec ingredients db snapshot db₂) : SameInputs ingredients db₁ db₂ :=
  ⟨fun k hk => Option.ext fun e => (h₂.slots k e hk).trans (h₁.slots k e hk).symm,
    h₂.revision.trans h₁.revision.symm⟩

namespace Compacts

omit [DecidableEq V] in
/-- What is saved is a part of the database. -/
theorem part (h : Compacts C o ingredients options db snapshot log) :
    ∃ o', o'.Nodup ∧ (db.part o').saveCache o' C.toCodec ingredients = .ok snapshot :=
  saved_part h.lists.nodup h.saved

omit [DecidableEq V] in
/-- The snapshot has no other entries. -/
theorem inputs_of_fileHas (h : Compacts C o ingredients options db snapshot log)
    (hC : C.RoundTrip) {k : DynKey} {e : InputEntry V} (hk : ListsInput ingredients k.kind)
    (he : FileHas C.toCodec snapshot k e) : db.inputs k = some e := by
  obtain ⟨o', ho', hsave⟩ := h.part
  exact (Database.inputs_of_part
    ((inputs_iff_fileHas hC.toRoundTrip (Database.lists_part ho') hsave hk).mpr he)).2

omit [DecidableEq V] in
/-- A database has the slots of the snapshot exactly if none was dropped. -/
theorem ofSnapshot_iff (h : Compacts C o ingredients options db snapshot log) (hC : C.RoundTrip)
    {db' : Database V} (hsame : SameInputs ingredients db db') :
    OfSnapshot C.toCodec ingredients db snapshot db' ↔
      ∀ k, ¬ Dropped C.toCodec ingredients db snapshot k := by
  constructor
  · rintro hslots k ⟨hk, e, he, hnot⟩
    refine hnot ((hslots.slots k e hk).mp ?_)
    rw [hsame.slots k hk, he]
  · intro hnone
    refine ⟨fun k e hk => ?_, hsame.revision⟩
    rw [hsame.slots k hk]
    refine ⟨fun he => ?_, h.inputs_of_fileHas hC hk⟩
    by_contra hnot
    exact hnone k ⟨hk, e, he, hnot⟩

/-- The new cache is loaded. -/
theorem loaded (h : Compacts C o ingredients options db snapshot log) (hC : C.RoundTrip)
    (ho₁ : o₁.Lists db) (runtime : RuntimeId) :
    ∃ db', (Database.new runtime).loadCache C.toCodec o₁ ingredients (.read snapshot) =
      (.ok true, db') ∧ OfSnapshot C.toCodec ingredients db snapshot db' := by
  obtain ⟨o', ho', hsave⟩ := h.part
  obtain ⟨db', hload, hreloaded⟩ := loadCache_new hC.toRoundTrip (Database.lists_part ho')
    (Database.lists_part_of_lists ho₁) (fun kind => Database.inverse_part (h.inverse kind)) hsave
    runtime
  have hsame := hreloaded.sameInputs
  refine ⟨db', hload, fun k e hk => ?_, hsame.revision⟩
  rw [hsame.slots k hk]
  exact inputs_iff_fileHas hC.toRoundTrip (Database.lists_part ho') hsave hk

/-- **The new cache is restored** without a log, and with the new one. -/
theorem restores (h : Compacts C o ingredients options db snapshot log) (hC : C.RoundTrip)
    (ho₁ : o₁.Lists db) (hcache : d.cache = some snapshot)
    (hwal : d.wal = none ∨ d.wal = some log) :
    ∃ db', d.restart C o₁ o₂ ingredients runtime = .ok db' ∧
      OfSnapshot C.toCodec ingredients db snapshot db' := by
  obtain ⟨db', hload, hsnapshot⟩ := h.loaded hC ho₁ runtime
  unfold Disk.restart
  rw [hcache]
  simp only [FileRead.of, hload]
  rcases hwal with hwal | hwal
  · rw [hwal]
    exact ⟨db', rfl, hsnapshot⟩
  · obtain ⟨threshold, wal, hcreate, rfl⟩ := h.created
    obtain ⟨hlogged, hbase⟩ := logged_create hcreate
    obtain ⟨db₂, hreplay, hinputs, -, -, hrev⟩ := replayWal_logged db' hC (saved_cut h.saved).1
      hlogged nofun nofun (hsnapshot.revision.trans hbase.symm) o₂
    rw [hwal]
    simp only [hreplay]
    refine ⟨db₂, rfl, fun k e hk => ?_, ?_⟩
    · rw [hinputs]
      exact hsnapshot.slots k e hk
    · rw [hrev]
      exact hbase

/-- **Next to the new cache the old log** is replayed if it starts from its revision, and refused
otherwise; and it writes what a finished compaction would not have, if it writes a slot that was
dropped. -/
theorem restores_old (h : Compacts C o ingredients options db snapshot log) (hC : C.RoundTrip)
    (ho₁ : o₁.Lists db) {old : Disk} (hold : old.Restores C o₁ o₂ ingredients runtime db)
    (hcache : d.cache = some snapshot) (hwal : d.wal = old.wal) {bytes rest : Bytes}
    {header : WalHeader} (hbytes : old.wal = some bytes)
    (hopen : C.openWal bytes = .ok (header, rest)) :
    (∃ db', d.restart C o₁ o₂ ingredients runtime = .ok db' ∧
      OfSnapshot C.toCodec ingredients db snapshot db') ↔
      header.baseRevision = db.runtime.currentRevision ∧
        ∀ k, Dropped C.toCodec ingredients db snapshot k →
          k ∉ (C.slotWrites ingredients header.baseRevision bytes).map Prod.fst := by
  obtain ⟨db₁, hload, hsnapshot⟩ := h.loaded hC ho₁ runtime
  obtain ⟨after, hrestart, hafter⟩ := hold
  unfold Disk.restart at hrestart
  rw [hbytes] at hrestart
  split at hrestart
  · cases hrestart
  · next found db₀ _ =>
    split at hrestart
    · cases hrestart
    · next n after' hreplay =>
      obtain rfl := Except.ok.inj hrestart
      obtain ⟨header', rest', hopen', hbase⟩ := openWal_of_replayed hreplay
      obtain ⟨rfl, rfl⟩ := Prod.mk.inj (Except.ok.inj (hopen'.symm.trans hopen))
      -- what a slot holds after the log, on the old cache and on the new one
      obtain ⟨after', hagain, hinputs, -⟩ := replayWal_same o₂ hreplay rfl
      obtain rfl : after' = _ := congrArg Prod.snd (hagain.symm.trans hreplay)
      have hwritten : ∀ k, ListsInput ingredients k.kind →
          (latest (C.slotWrites ingredients header'.baseRevision bytes) k).or (db₀.inputs k) =
            db.inputs k := by
        intro k hk
        rw [← hbase, ← write_some_eq_or, ← hinputs]
        exact hafter.slots k hk
      unfold Disk.restart
      rw [hcache, hwal, hbytes]
      simp only [FileRead.of, hload]
      by_cases hsame : header'.baseRevision = db.runtime.currentRevision
      · rw [and_iff_right hsame]
        obtain ⟨after₁, hreplay₁, hinputs₁, hrev₁⟩ := replayWal_same o₂ hreplay
          (hsnapshot.revision.trans (hsame.symm.trans hbase.symm))
        rw [hreplay₁]
        have hnew : ∀ k, after₁.inputs k =
            (latest (C.slotWrites ingredients header'.baseRevision bytes) k).or (db₁.inputs k) := by
          intro k
          rw [← hbase, ← write_some_eq_or, ← hinputs₁]
        constructor
        · rintro ⟨db', hok, hslots⟩ k ⟨hk, e, he, hnot⟩ hmem
          obtain rfl := Except.ok.inj hok
          cases hl : latest (C.slotWrites ingredients header'.baseRevision bytes) k with
          | none => exact latest_eq_none_iff.mp hl hmem
          | some e' =>
            have hsome := hwritten k hk
            have hsome₁ := hnew k
            rw [hl, Option.some_or] at hsome hsome₁
            refine hnot ((hslots.slots k e hk).mp ?_)
            rw [hsome₁, hsome, he]
        · intro hnone
          refine ⟨after₁, rfl, fun k e hk => ?_, hrev₁.trans hafter.revision⟩
          rw [hnew k]
          cases hl : latest (C.slotWrites ingredients header'.baseRevision bytes) k with
          | none => exact hsnapshot.slots k e hk
          | some e' =>
            have hsome := hwritten k hk
            rw [hl, Option.some_or] at hsome
            rw [Option.some_or, hsome]
            refine ⟨fun he => ?_, h.inputs_of_fileHas hC hk⟩
            by_contra hnot
            have hempty := latest_eq_none_iff.mpr (hnone k ⟨hk, e, he, hnot⟩)
            rw [hl] at hempty
            cases hempty
      · refine iff_of_false ?_ fun h => hsame h.1
        rintro ⟨db', hrestart', -⟩
        obtain ⟨e, hrefused⟩ := replayWal_refused o₂ ingredients hopen'
          (hsnapshot.revision.symm ▸ hsame)
        rw [hrefused] at hrestart'
        cases hrestart'

/-- A compaction that has run to its end leads to the slots of the snapshot. -/
theorem ends (h : Compacts C o ingredients options db snapshot log) (hC : C.RoundTrip)
    (ho₁ : o₁.Lists db) (o₂ : Order) (runtime : RuntimeId) (d : Disk) (createNewWal : Bool) :
    ∃ dbEnd,
      (d.finished snapshot log createNewWal).restart C o₁ o₂ ingredients runtime = .ok dbEnd ∧
        OfSnapshot C.toCodec ingredients db snapshot dbEnd := by
  unfold Disk.finished
  rcases Nat.lt_or_ge 2 (d.compactSteps createNewWal).length with hlen | hlen
  · obtain ⟨hcache, hwal⟩ := d.compacted_after snapshot log createNewWal hlen
    exact h.restores hC ho₁ hcache hwal
  · obtain ⟨htwo, hwal⟩ := d.length_compactSteps createNewWal hlen
    rw [htwo]
    exact h.restores hC ho₁ rfl (.inl hwal)

/-- To come to the slots and the revision of a compaction that has run to its end is to restore
those of the snapshot. -/
theorem recovers_iff (h : Compacts C o ingredients options db snapshot log) (hC : C.RoundTrip)
    (ho₁ : o₁.Lists db) (o₂ : Order) (runtime : RuntimeId) (createNewWal : Bool) (n : Nat)
    (fails : Bool) :
    (∃ db' dbEnd,
      (d.stopped snapshot log createNewWal n fails).restart C o₁ o₂ ingredients runtime = .ok db' ∧
        (d.finished snapshot log createNewWal).restart C o₁ o₂ ingredients runtime = .ok dbEnd ∧
          SameInputs ingredients dbEnd db') ↔
      ∃ db', (d.compacted snapshot log createNewWal n).restart C o₁ o₂ ingredients runtime =
        .ok db' ∧ OfSnapshot C.toCodec ingredients db snapshot db' := by
  obtain ⟨dbEnd, hfinished, hend⟩ := h.ends hC ho₁ o₂ runtime d createNewWal
  obtain ⟨hcache, hwal⟩ := d.stopped_files snapshot log createNewWal fails n
  rw [Disk.restart_congr hcache hwal]
  constructor
  · rintro ⟨db', dbEnd', hrestart, hfinished', hsame⟩
    rw [hfinished] at hfinished'
    obtain rfl := Except.ok.inj hfinished'
    refine ⟨db', hrestart, fun k e hk => ?_, hsame.revision.trans hend.revision⟩
    rw [hsame.slots k hk]
    exact hend.slots k e hk
  · rintro ⟨db', hrestart, hslots⟩
    exact ⟨db', dbEnd, hrestart, hfinished, hend.same hslots⟩

end Compacts

/-- **An interrupted compaction recovers**, that is, comes to the slots and the revision that a
compaction that has run to its end would lead to, if and only if

* it does not stop before the rename where the limits drop the record of a slot, which the old files
  restore, and
* it does not stop between the rename and the removal of a log that starts from another revision
  than the one saved, or that writes a slot whose record was dropped. -/
theorem interrupted_compaction_recovers_iff (hC : C.RoundTrip)
    (h : Compacts C o ingredients options db snapshot log) (ho₁ : o₁.Lists db)
    (hold : d.Restores C o₁ o₂ ingredients runtime db) (createNewWal : Bool) (n : Nat)
    (fails : Bool) :
    (∃ db' dbEnd,
      (d.stopped snapshot log createNewWal n fails).restart C o₁ o₂ ingredients runtime = .ok db' ∧
        (d.finished snapshot log createNewWal).restart C o₁ o₂ ingredients runtime = .ok dbEnd ∧
          SameInputs ingredients dbEnd db') ↔
      (n < 2 → ∀ k, ¬ Dropped C.toCodec ingredients db snapshot k) ∧
        (n = 2 → ∀ bytes header rest, d.wal = some bytes → C.openWal bytes = .ok (header, rest) →
          header.baseRevision = db.runtime.currentRevision ∧
            ∀ k, Dropped C.toCodec ingredients db snapshot k →
              k ∉ (C.slotWrites ingredients header.baseRevision bytes).map Prod.fst) := by
  rw [h.recovers_iff hC ho₁ o₂ runtime createNewWal n fails]
  rcases Nat.lt_trichotomy n 2 with hn | rfl | hn
  · obtain ⟨hcache, hwal⟩ := d.compacted_before snapshot log createNewWal hn
    rw [Disk.restart_congr hcache hwal, and_iff_left fun heq => absurd heq (Nat.ne_of_lt hn),
      forall_prop_of_true hn]
    obtain ⟨db₀, hrestart, hsame⟩ := hold
    rw [← h.ofSnapshot_iff hC hsame, hrestart]
    simp
  · obtain ⟨hcache, hwal⟩ := d.compacted_between snapshot log createNewWal
    rw [and_iff_right fun hlt => absurd hlt (Nat.lt_irrefl 2), forall_prop_of_true rfl]
    cases hbytes : d.wal with
    | none =>
      exact iff_of_true (h.restores hC ho₁ hcache (.inl (hwal.trans hbytes)))
        fun bytes header rest hsome => by cases hsome
    | some bytes =>
      obtain ⟨header, rest, hopen⟩ := hold.opens hbytes
      rw [h.restores_old hC ho₁ hold hcache hwal hbytes hopen]
      constructor
      · rintro hgood bytes' header' rest' hsome hopen'
        obtain rfl := Option.some.inj hsome
        obtain ⟨rfl, rfl⟩ := Prod.mk.inj (Except.ok.inj (hopen'.symm.trans hopen))
        exact hgood
      · exact fun hgood => hgood bytes header rest rfl hopen
  · obtain ⟨hcache, hwal⟩ := d.compacted_after snapshot log createNewWal hn
    exact iff_of_true (h.restores hC ho₁ hcache hwal)
      ⟨fun hlt => absurd hlt (by omega), fun heq => absurd heq (by omega)⟩

end restart

namespace Compaction

open RoundTrip

/-- The file of the second save. -/
def compactedFile : CacheFile :=
  ⟨formatVersion, 2, [⟨0, "items", .input, [[0]]⟩, ⟨1, "totals", .derived, []⟩,
    ⟨2, "names", .interned, [[]]⟩]⟩

def codec : WalCodec Nat :=
  .ofTable ⟨[file, compactedFile], [([], ⟨some 1, 1⟩), ([], ⟨some 2, 2⟩)], [], [(0, 7)]⟩ [2]
    ⟨[⟨walFormatVersion, 1⟩, ⟨walFormatVersion, 2⟩], [⟨2, 0, .set [] []⟩], [[]]⟩

/-- The database was saved at revision 1, the slot was set again, and that was appended; now it is
saved again. -/
structure Saved (c c' : Config Nat) (wal₀ wal : WalWriter) (log : Bytes) : Prop where
  base : runOps schema 0 init program = some c
  saved : c.world.database.saveCache order codec.toCodec ingredients = .ok []
  created : WalWriter.create codec c.world.database.runtime.currentRevision 100 = .ok wal₀
  set : runOp schema 0 c (.mutate 0 item (some 2)) = some c'
  appended : c'.world.database.appendToWal order codec ingredients wal₀ = (.ok 1, wal)
  compacts :
    ∃ wal₁, WalWriter.create codec c'.world.database.runtime.currentRevision 100 = .ok wal₁ ∧
    log = wal₁.flush.file
  snapshot : c'.world.database.saveCache order codec.toCodec ingredients = .ok [0]

theorem exists_saved : ∃ c c' wal₀ wal log, Saved c c' wal₀ wal log :=
  ⟨_, _, _, _, _, rfl, rfl, rfl, rfl, rfl, ⟨_, rfl, rfl⟩, rfl⟩

theorem roundTrip_codec : codec.RoundTrip := WalCodec.roundTrip_ofTable ..

/-- The files before the compaction. -/
def old (wal : WalWriter) : Disk := ⟨some [], none, some wal.flush.file⟩

section saved

variable {c c' : Config Nat} {wal₀ wal : WalWriter} {log : Bytes}

theorem Saved.plain (h : Saved c c' wal₀ wal log) : Plain c'.world.database := by
  have hplain := plain_of_program h.base
  obtain ⟨hc, -, -, hc', -, -, -⟩ := h
  cases hc
  cases hc'
  exact ⟨fun k hk => (Function.update_of_ne hk ..).trans (hplain.inputs k hk), hplain.cells,
    hplain.interned⟩

theorem Saved.toCompacts (h : Saved c c' wal₀ wal log) :
    Compacts codec order ingredients .default c'.world.database [0] log where
  lists := h.plain.lists
  inverse := by
    have hrun : runOps schema 0 init (program ++ [.mutate 0 item (some 2)]) = some c' := by
      rw [runOps_append, h.base]
      simp only [Option.bind_some, runOps, h.set]
    exact inverse_of_run hrun
  saved := saveCacheWithOptions_default.trans h.snapshot
  created := ⟨100, h.compacts⟩

/-- The files before the compaction restore the database. -/
theorem Saved.restores (h : Saved c c' wal₀ wal log) :
    (old wal).Restores codec order order ingredients 5 c'.world.database := by
  have hplain := plain_of_program h.base
  obtain ⟨db₁, hload, hreloaded⟩ := loadCache_new roundTrip_codec.toRoundTrip hplain.lists
    hplain.lists (inverse_of_run h.base) h.saved 5
  have hops : ∀ op ∈ program, op.label.OnDatabase := by simp [program, Op.label, Label.OnDatabase]
  have hset : Logging.step schema 0 codec ingredients ⟨c, wal₀⟩ (.op (.mutate 0 item (some 2))) =
      some ⟨c', wal₀⟩ := Logging.step_op h.set
  obtain ⟨cs, hs⟩ := Followed.step ⟨[], followed_start h.base hops h.created⟩ hset
    ⟨rfl, ⟨0, "items", .input⟩, List.mem_cons_self .., rfl, rfl⟩
  obtain ⟨db₂, m, hreplay, hrec, -⟩ := hs.recovered roundTrip_codec (saved_file h.saved).1
    h.plain.lists (fun _ _ change _ => fits_ofTable (by decide) change) h.appended hreloaded order
  refine ⟨db₂, ?_, hrec.inputs, hrec.revision⟩
  unfold Disk.restart old
  simp only [FileRead.of, hload, hreplay]

/-- The log starts from revision 1, and the database is at 2. -/
theorem Saved.revisions (h : Saved c c' wal₀ wal log) :
    ∃ header rest, codec.openWal wal.flush.file = .ok (header, rest) ∧
      header.baseRevision ≠ c'.world.database.runtime.currentRevision := by
  obtain ⟨hlogged, hbase⟩ := logged_create h.created
  obtain ⟨done, -, hdone, hbase', -⟩ := logged_appendIngredients hlogged h.appended
  obtain ⟨payloads, -, hopen⟩ := openWal_logged roundTrip_codec hdone
  refine ⟨_, _, hopen, ?_⟩
  show wal.baseRevision ≠ _
  rw [hbase', hbase]
  obtain ⟨hc, -, -, hc', -, -, -⟩ := h
  cases hc
  cases hc'
  decide

end saved

end Compaction

open Compaction RoundTrip in
/-- **Compaction is not crash safe**: after the rename the new cache is next to the old log, which
is refused. -/
theorem compaction_is_not_crash_safe :
    ¬ ∀ (db : Database Nat) (d : Disk) (snapshot log : Bytes) (n : Nat),
      Compacts codec order ingredients .default db snapshot log → order.Lists db →
        d.Restores codec order order ingredients 5 db →
          ∃ db' dbEnd,
            (d.stopped snapshot log true n false).restart codec order order ingredients 5 =
              .ok db' ∧
              (d.finished snapshot log true).restart codec order order ingredients 5 = .ok dbEnd ∧
                SameInputs ingredients dbEnd db' := by
  intro hclaim
  obtain ⟨c, c', wal₀, wal, log, h⟩ := exists_saved
  have hcompacts := h.toCompacts
  have hrecovers := hclaim _ (old wal) [0] log 2 hcompacts h.plain.lists h.restores
  rw [hcompacts.recovers_iff roundTrip_codec h.plain.lists] at hrecovers
  obtain ⟨hcache, hwal⟩ := (old wal).compacted_between [0] log true
  obtain ⟨header, rest, hopen, hne⟩ := h.revisions
  exact hne ((hcompacts.restores_old roundTrip_codec h.plain.lists h.restores hcache hwal rfl
    hopen).mp hrecovers).1

open Compaction RoundTrip in
/-- A compaction without limits that crashes before the rename recovers, and so does one that
crashes when the old log is removed. -/
theorem crash_after_removal_recovers :
    ∃ (c' : Config Nat) (wal : WalWriter) (log : Bytes) (db₁ db₃ dbEnd : Database Nat),
      c'.world.database.runtime.currentRevision = 2 ∧
      ((old wal).stopped [0] log true 1 false).restart codec order order ingredients 5 = .ok db₁ ∧
      ((old wal).stopped [0] log true 3 false).restart codec order order ingredients 5 = .ok db₃ ∧
        ((old wal).finished [0] log true).restart codec order order ingredients 5 = .ok dbEnd ∧
          SameInputs ingredients dbEnd db₁ ∧ SameInputs ingredients dbEnd db₃ := by
  obtain ⟨c, c', wal₀, wal, log, h⟩ := exists_saved
  have hnone : ∀ k, ¬ Dropped codec.toCodec ingredients c'.world.database [0] k := by
    rintro k ⟨hk, e, he, hnot⟩
    exact hnot ((inputs_iff_fileHas roundTrip_codec.toRoundTrip h.plain.lists h.snapshot hk).mp he)
  obtain ⟨db₁, dbEnd, hrestart₁, hfinished, hsame₁⟩ :=
    (interrupted_compaction_recovers_iff roundTrip_codec h.toCompacts h.plain.lists h.restores
      true 1 false).mpr ⟨fun _ => hnone, fun heq => absurd heq (by decide)⟩
  obtain ⟨db₃, dbEnd', hrestart₃, hfinished', hsame₃⟩ :=
    (interrupted_compaction_recovers_iff roundTrip_codec h.toCompacts h.plain.lists h.restores
      true 3 false).mpr ⟨fun hlt => absurd hlt (by decide), fun heq => absurd heq (by decide)⟩
  rw [hfinished] at hfinished'
  obtain rfl := Except.ok.inj hfinished'
  refine ⟨c', wal, log, db₁, db₃, dbEnd, ?_, hrestart₁, hrestart₃, hfinished, hsame₁, hsame₃⟩
  obtain ⟨hc, -, -, hc', -, -, -⟩ := h
  cases hc
  cases hc'
  rfl

end Picante

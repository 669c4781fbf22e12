/-
# A database over the lives of its processes

A process loads the cache, replays the log, and writes a new cache and a new log before it goes on
(`Machine.step`).  While it runs it changes its database, now and then appends the changes to the
log and flushes it, and compacts the log, within limits or without; at any moment it may die, also
in the midst of a compaction.  Then another one is started on the files.

Over any number of lives the files restore the slots and the revision as they were when they were
last brought up to date (`files_restore_durable`): by a flush, a compaction, or a start.  The tables
of interned values are those of the last compaction, as the log has none.

A crash within an append is the subject of `Picante.Persist.Crash`; that between the rename and
the removal of a log of another revision, after which the files are refused, and limits that drop
more than records of derived cells are left out here (`MachineOp.Allowed`).
-/
import Picante.Persist.Compaction
import Picante.Persist.Loaded
import Picante.Tables.Latest

namespace Picante

open Framing Tables Config

variable {V : Type}

/-! ## 1. Databases that are saved -/

/-- No stamp of the database is to come, and its tables are inverse. -/
structure Database.Sound (db : Database V) : Prop where
  slots : ∀ k e, db.inputs k = some e → e.changedAt ≤ db.runtime.currentRevision
  cells : ∀ k, (db.cells k).state.Native db.runtime.currentRevision
  interned : ∀ kind, (db.interned kind).Inverse ∧ (db.interned kind).Fresh

theorem Database.sound_new (id : RuntimeId) : (Database.new id : Database V).Sound where
  slots _ _ h := by cases h
  cells _ := trivial
  interned _ := ⟨fun _ _ => iff_of_false nofun nofun, InternedIngredient.fresh_empty⟩

/-- The database of a process is sound. -/
theorem Followed.sound {C : WalCodec V} {ingredients : List PersistableIngredient}
    {base : Database V} {s : Logging V} {cs : List (Change V)}
    (h : Followed C ingredients base s cs)
    (hi : ∀ kind, (s.config.world.interned kind).Inverse ∧ (s.config.world.interned kind).Fresh) :
    s.database.Sound where
  slots := h.comes.dated
  cells := h.native.world.state
  interned := hi

/-- What a process starts with. -/
def Config.ofDatabase (db : Database V) : Config V := { init with world := World.init.reload db }

@[simp] theorem database_ofDatabase (db : Database V) : (ofDatabase db).world.database = db :=
  World.database_reload ..

theorem Database.Sound.native {db : Database V} (h : db.Sound) : Native (ofDatabase db) := by
  have hview : (ofDatabase db).world.views 0 = db.toView := World.views_reload ..
  have hrev : (ofDatabase db).world.rev 0 = db.runtime.currentRevision := by
    show ((ofDatabase db).world.views 0).runtime.currentRevision = _
    rw [hview]
  refine ⟨⟨fun k => ?_, nofun, fun _ => rfl, fun _ => trivial, nofun⟩,
    fun t ht => absurd rfl ht, fun t b hb => absurd hb List.not_mem_nil⟩
  rw [hrev]
  show (((ofDatabase db).world.views 0).cells k).state.Native _
  rw [hview]
  exact h.cells k

/-- **A log that is created follows the database from then on.** -/
theorem followed_created {C : WalCodec V} {ingredients : List PersistableIngredient}
    {c : Config V} (hidle : c.Idle) (hnative : Native c) (hsound : c.world.database.Sound)
    {wal : WalWriter} {threshold : Nat}
    (hcreate : WalWriter.create C c.world.database.runtime.currentRevision threshold = .ok wal) :
    Followed C ingredients c.world.database ⟨c, wal⟩ [] := by
  obtain ⟨hlogged, hbase⟩ := logged_create hcreate
  exact ⟨hidle, hnative, .refl hsound.slots, hlogged, hbase, nofun, nofun, nofun, nofun⟩

/-! ## 2. Within limits -/

/-- The limits drop records of derived cells only. -/
def Database.SavesBase (db : Database V) (o : Order) (C : Codec V)
    (ingredients : List PersistableIngredient) (options : CacheSaveOptions) : Prop :=
  ∀ snapshot, db.saveCacheWithOptions o C ingredients options = .ok snapshot →
    (∀ k, ¬ Dropped C ingredients db snapshot k) ∧
      ∀ i ∈ ingredients, i.sectionType = .interned → ∀ id v,
        (db.interned i.kind).byId id = some v → FileNames C snapshot i.kind id v

/-- The snapshot is that of a part of the database which has all slots and interned values. -/
structure Database.KeptAs (db : Database V) (o : Order) (C : Codec V)
    (ingredients : List PersistableIngredient) (snapshot : Bytes) : Prop where
  nodup : o.Nodup
  saved : (db.part o).saveCache o C ingredients = .ok snapshot
  slots : ∀ k, ListsInput ingredients k.kind → (db.part o).inputs k = db.inputs k
  tables : ∀ i ∈ ingredients, i.sectionType = .interned →
    ((db.part o).interned i.kind).byId = (db.interned i.kind).byId

/-- **What such limits leave.** -/
theorem Database.SavesBase.keptAs {C : Codec V} {ingredients : List PersistableIngredient}
    {db : Database V} {o : Order} {options : CacheSaveOptions} {snapshot : Bytes}
    (h : db.SavesBase o C ingredients options) (hC : C.RoundTrip) (ho : o.Lists db)
    (hsave : db.saveCacheWithOptions o C ingredients options = .ok snapshot) :
    ∃ o', db.KeptAs o' C ingredients snapshot := by
  obtain ⟨hslots, htables⟩ := h snapshot hsave
  obtain ⟨o', ho', hpart⟩ := saved_part ho.nodup hsave
  have hlists : o'.Lists (db.part o') := lists_part ho'
  refine ⟨o', ho', hpart, fun k hk => Option.ext fun e => ⟨fun he => (inputs_of_part he).2, ?_⟩,
    fun i hi htype => funext fun id => Option.ext fun v => ⟨fun hv => (byId_part.mp hv).2, ?_⟩⟩
  · intro he
    refine (inputs_iff_fileHas hC hlists hpart hk).mpr ?_
    by_contra hnot
    exact hslots k ⟨hk, e, he, hnot⟩
  · intro hv
    exact (byId_iff_fileNames hC hlists hpart hi htype).mpr (htables i hi htype id v hv)

theorem Database.Sound.part {db : Database V} (h : db.Sound) (o : Order) : (db.part o).Sound where
  slots k e he := h.slots k e (inputs_of_part he).2
  cells k := by
    rcases cells_part db o k with ⟨heq, -⟩ | heq
    · rw [heq]
      exact h.cells k
    · rw [heq]
      trivial
  interned kind := by
    obtain ⟨hinverse, hfresh⟩ := h.interned kind
    refine ⟨inverse_part hinverse, fun id hle => ?_⟩
    cases hv : ((db.part o).interned kind).byId id with
    | none => rfl
    | some v =>
      have hnone := hfresh id hle
      rw [(byId_part.mp hv).2] at hnone
      cases hnone

/-! ## 3. Lives -/

/-- A machine on which a database is kept: its process while there is one, and its files.  The
database that the cache was saved from, and the one that the files were last brought up to date
with, are for the proofs only. -/
structure Machine (V : Type) where
  process : Option (Logging V)
  disk : Disk
  saved : Database V
  durable : Database V

/-- What happens on a machine. -/
inductive MachineOp (V : Type) where
  /-- a process starts: it loads and replays the files, and compacts them -/
  | start (o₁ o₂ o : Order) (options : CacheSaveOptions) (threshold : Nat)
  | op (op : Op V)
  /-- the changes are appended to the log, which is flushed -/
  | sync (o : Order)
  | compact (o : Order) (options : CacheSaveOptions) (threshold : Nat)
  /-- the process dies -/
  | crash
  /-- the process dies after some of the steps of a compaction, or because the next one fails -/
  | crashCompacting (o : Order) (options : CacheSaveOptions) (createNewWal : Bool) (n : Nat)
      (fails : Bool)

namespace Machine

/-- A machine without files. -/
def new : Machine V := ⟨none, ⟨none, none, none⟩, .new 1, .new 1⟩

variable (C : WalCodec V) (ingredients : List PersistableIngredient)

/-- What a compaction saves, and the log it creates. -/
def compaction (db : Database V) (o : Order) (options : CacheSaveOptions) (threshold : Nat) :
    Option (Bytes × WalWriter) :=
  match db.saveCacheWithOptions o C.toCodec ingredients options,
    WalWriter.create C db.runtime.currentRevision threshold with
  | .ok snapshot, .ok wal => some (snapshot, wal)
  | _, _ => none

/-- `compact_wal` run to its end, with a new log, which the process then writes to: it is created
by `compact_wal`, or else by the process itself before it goes on. -/
def compacted (m : Machine V) (config : Config V) (o : Order) (options : CacheSaveOptions)
    (threshold : Nat) : Option (Machine V) :=
  (compaction C ingredients config.world.database o options threshold).map fun (snapshot, wal) =>
    ⟨some ⟨config, wal⟩, m.disk.finished snapshot wal.flush.file true, config.world.database,
      config.world.database⟩

/-- What happens next; `none` where it cannot happen, where the files are refused, and where
something cannot be encoded. -/
def step [DecidableEq V] (S : Schema V) (fuel : Nat) (m : Machine V) :
    MachineOp V → Option (Machine V)
  | .start o₁ o₂ o options threshold =>
    match m.process, m.disk.restart C o₁ o₂ ingredients 1 with
    | none, .ok db => m.compacted C ingredients (ofDatabase db) o options threshold
    | _, _ => none
  | .op op => do
    let s ← m.process
    let config ← runOp S fuel s.config op
    return { m with process := some { s with config } }
  | .sync o => do
    let s ← m.process
    match s.database.appendToWal o C ingredients s.wal with
    | (.error _, _) => none
    | (.ok _, wal) =>
      return { m with
        process := some { s with wal := wal.flush }
        disk := { m.disk with wal := some wal.flush.file }
        durable := s.database }
  | .compact o options threshold => do
    let s ← m.process
    m.compacted C ingredients s.config o options threshold
  | .crash => some { m with process := none }
  | .crashCompacting o options createNewWal n fails => do
    let s ← m.process
    let (snapshot, wal) ← compaction C ingredients s.database o options 0
    let disk := m.disk.stopped snapshot wal.flush.file createNewWal n fails
    -- from the rename on the new cache is read
    if n < 2 then return { m with process := none, disk }
    else return ⟨none, disk, s.database, s.database⟩

end Machine

/-- Iterating over maps goes through what is there, an append writes only what the reader accepts,
the limits of a compaction drop records of derived cells only, and no compaction dies between the
rename and the removal of a log of another revision. -/
def MachineOp.Allowed [DecidableEq V] (C : WalCodec V) (ingredients : List PersistableIngredient)
    (m : Machine V) : MachineOp V → Prop
  | .start o₁ o₂ o options _ => o₁.Lists m.saved ∧
      ∀ db, m.disk.restart C o₁ o₂ ingredients 1 = .ok db →
        o.Lists db ∧ db.SavesBase o C.toCodec ingredients options
  | .op operation => operation.label.Tracked ingredients
  | .sync o => ∀ s ∈ m.process, o.Lists s.database ∧
      s.database.ChangesFit o C ingredients s.wal.baseRevision
  | .compact o options _ => ∀ s ∈ m.process, o.Lists s.database ∧
      s.database.SavesBase o C.toCodec ingredients options
  | .crash => True
  | .crashCompacting o options _ n _ => ∀ s ∈ m.process, o.Lists s.database ∧
      s.database.SavesBase o C.toCodec ingredients options ∧
        (n = 2 → s.wal.baseRevision = s.database.runtime.currentRevision)

/-! ## 4. What the files hold -/

/-- The files hold what `saved` was saved as, and the changes `cs` since, which lead to
`durable`. -/
structure Disk.Keeps (C : WalCodec V) (ingredients : List PersistableIngredient) (d : Disk)
    (saved durable : Database V) (cs : List (Change V)) : Prop where
  cache : ∃ o snapshot, saved.KeptAs o C.toCodec ingredients snapshot ∧ d.cache = some snapshot
  wal : (d.wal = none ∧ cs = []) ∨ ∃ wal : WalWriter, d.wal = some wal.flush.file ∧
    Logged C wal cs ∧ wal.baseRevision = saved.runtime.currentRevision
  savedSound : saved.Sound
  durableSound : durable.Sound
  listed : ∀ c ∈ cs, c.Listed ingredients
  fits : ∀ c ∈ cs, c.Fits C
  slots : ∀ k, ListsInput ingredients k.kind →
    write saved.inputs (cs.filterMap Change.slotWrite) k = durable.inputs k
  revision : Change.highest saved.runtime.currentRevision cs = durable.runtime.currentRevision
  cells : ∀ k r, .cell k r ∈ cs → (ErasedCell.newReady r).state.Native
    durable.runtime.currentRevision

/-- What a process starts with from the files: the slots and the revision of `durable`, and the
tables of `saved`. -/
structure Restarted (ingredients : List PersistableIngredient) (saved durable db : Database V) :
    Prop where
  same : SameInputs ingredients durable db
  sound : db.Sound
  interned : ∀ i ∈ ingredients, i.sectionType = .interned →
    (db.interned i.kind).byId = (saved.interned i.kind).byId

section keeps

variable [DecidableEq V] {C : WalCodec V} {ingredients : List PersistableIngredient} {d d' : Disk}
  {saved durable : Database V} {cs : List (Change V)}

omit [DecidableEq V] in
/-- A restored cell has the stamps of the past. -/
theorem ErasedState.Native.native_restored {c : ErasedCell V} {r r' : Revision}
    (h : c.state.Native r) (hr : r ≤ r') : c.restored.state.Native r' := by
  unfold ErasedCell.restored
  cases hs : c.state with
  | ready R =>
    rw [hs] at h
    exact ⟨rfl, Nat.le_trans h.verifiedAt hr, Nat.le_trans h.changedAt hr⟩
  | vacant | running _ _ | poisoned _ _ => trivial

/-- A saved database that was loaded into a new one, and on which the changes of the log were
carried out. -/
structure Disk.Replays (C : WalCodec V) (o₁ o₂ : Order) (ingredients : List PersistableIngredient)
    (id : RuntimeId) (d : Disk) (saved : Database V) (cs : List (Change V)) (db₁ db : Database V) :
    Prop where
  restart : d.restart C o₁ o₂ ingredients id = .ok db
  reloaded : Reloaded ingredients saved db₁
  spares : Database.Spares ingredients (.new id) db₁
  inputs : db.inputs = write db₁.inputs (cs.filterMap Change.slotWrite)
  cells : db.cells = write db₁.cells (cs.filterMap Change.cellWrite)
  interned : db.interned = db₁.interned
  revision : db.runtime.currentRevision = Change.highest saved.runtime.currentRevision cs

theorem Disk.restart_eq {o₁ o₂ : Order} {id : RuntimeId} {found : Bool} {n : Nat}
    {db₁ db : Database V}
    (hload : (Database.new id).loadCache C.toCodec o₁ ingredients (.of d.cache) = (.ok found, db₁))
    (hreplay : db₁.replayWal C o₂ ingredients (.of d.wal) = (.ok n, db)) :
    d.restart C o₁ o₂ ingredients id = .ok db := by
  unfold Disk.restart
  simp only [hload, hreplay]

theorem Disk.Keeps.replays (h : d.Keeps C ingredients saved durable cs) (hC : C.RoundTrip)
    {o₁ : Order} (ho₁ : o₁.Lists saved) (o₂ : Order) (id : RuntimeId) :
    ∃ o snapshot db₁ db, saved.KeptAs o C.toCodec ingredients snapshot ∧
      d.Replays C o₁ o₂ ingredients id (saved.part o) cs db₁ db := by
  obtain ⟨o, snapshot, hkept, hcache⟩ := h.cache
  obtain ⟨db₁, hload, hr⟩ := loadCache_new hC.toRoundTrip (Database.lists_part hkept.nodup)
    (Database.lists_part_of_lists ho₁)
    (fun kind => Database.inverse_part (h.savedSound.interned kind).1) hkept.saved id
  refine ⟨o, snapshot, ?_⟩
  have hspares := Database.spares_loadCache hload
  have hload' : (Database.new id).loadCache C.toCodec o₁ ingredients (.of d.cache) =
      (.ok true, db₁) := by rw [hcache]; exact hload
  rcases h.wal with ⟨hwal, rfl⟩ | ⟨wal, hwal, hlogged, hbase⟩
  · have hreplay : db₁.replayWal C o₂ ingredients (.of d.wal) = (.ok 0, db₁) := by rw [hwal]; rfl
    exact ⟨db₁, db₁, hkept, Disk.restart_eq hload' hreplay, hr, hspares, rfl, rfl, rfl,
      hr.revision⟩
  · obtain ⟨db, hreplay, hinputs, hcells, hinterned, hrev⟩ := replayWal_logged db₁ hC
      (saved_file hkept.saved).1 hlogged h.listed h.fits (hr.revision.trans hbase.symm) o₂
    have hreplay' : db₁.replayWal C o₂ ingredients (.of d.wal) = (.ok cs.length, db) := by
      rw [hwal]
      exact hreplay
    exact ⟨db₁, db, hkept, Disk.restart_eq hload' hreplay', hr, hspares, hinputs, hcells,
      hinterned, hbase ▸ hrev⟩

section replays

variable {o₁ o₂ : Order} {id : RuntimeId} {db₁ db : Database V}

/-- A slot that is not listed is neither loaded nor logged. -/
theorem Disk.Replays.unlisted_slot (h : d.Replays C o₁ o₂ ingredients id saved cs db₁ db)
    (hlisted : ∀ c ∈ cs, c.Listed ingredients) {k : DynKey}
    (hk : ¬ ListsInput ingredients k.kind) : db.inputs k = none := by
  rw [h.inputs, write_of_not_mem]
  · exact h.spares.inputs k fun i hi htype hkind => hk ⟨i, hi, hkind, htype⟩
  · intro hmem
    obtain ⟨⟨k', e⟩, hw, rfl⟩ := List.mem_map.mp hmem
    obtain ⟨e', rfl, hslot⟩ := (mem_slotWrites _).mp hw
    exact hk (hlisted _ hslot)

/-- A cell is as it was logged last, or else as it was saved. -/
theorem Disk.Replays.native_cell (h : d.Replays C o₁ o₂ ingredients id saved cs db₁ db)
    {r : Revision} (hsaved : saved.Sound) (hle : saved.runtime.currentRevision ≤ r)
    (hcells : ∀ k R, .cell k R ∈ cs → (ErasedCell.newReady R).state.Native r) (k : DynKey) :
    (db.cells k).state.Native r := by
  rw [h.cells, write_eq_getD]
  cases hlatest : latest (cs.filterMap Change.cellWrite) k with
  | some cell =>
    obtain ⟨c, hc, hw⟩ := List.mem_filterMap.mp (mem_of_latest hlatest)
    cases c with
    | slot k' e => cases hw
    | cell k' R => cases hw; exact hcells k R hc
  | none =>
    show (db₁.cells k).state.Native r
    by_cases hk : ∃ i ∈ ingredients, i.sectionType = .derived ∧ i.kind = k.kind
    · obtain ⟨i, hi, htype, hkind⟩ := hk
      have hpart := h.reloaded.parts i hi
      unfold PartRestored at hpart
      rw [htype] at hpart
      obtain ⟨kind, key⟩ := k
      obtain rfl : i.kind = kind := hkind
      rw [hpart key]
      exact (hsaved.cells _).native_restored hle
    · rw [h.spares.cells k fun i hi htype hkind => hk ⟨i, hi, htype, hkind⟩]
      trivial

/-- A table is as it was saved, and its next id is above all those in use. -/
theorem Disk.Replays.sound_table (h : d.Replays C o₁ o₂ ingredients id saved cs db₁ db)
    (hsaved : saved.Sound) (kind : QueryKindId) :
    (db.interned kind).Inverse ∧ (db.interned kind).Fresh := by
  rw [h.interned]
  by_cases hk : ∃ i ∈ ingredients, i.sectionType = .interned ∧ i.kind = kind
  · obtain ⟨i, hi, htype, rfl⟩ := hk
    have hpart := h.reloaded.parts i hi
    unfold PartRestored at hpart
    rw [htype] at hpart
    obtain ⟨hid, hvalue, hbound⟩ := hpart
    refine ⟨fun id v => ?_, fun id hle => ?_⟩
    · rw [hid, hvalue]
      exact (hsaved.interned i.kind).1 id v
    · cases hv : (db₁.interned i.kind).byId id with
      | none => rfl
      | some v => exact absurd (hbound id v hv) (Nat.not_lt_of_le hle)
  · rw [h.spares.interned kind fun i hi htype hkind => hk ⟨i, hi, htype, hkind⟩]
    exact (Database.sound_new id).interned kind

end replays

/-- **The files restore what they hold.** -/
theorem Disk.Keeps.restarted (h : d.Keeps C ingredients saved durable cs) (hC : C.RoundTrip)
    {o₁ : Order} (ho₁ : o₁.Lists saved) (o₂ : Order) (id : RuntimeId) :
    ∃ db, d.restart C o₁ o₂ ingredients id = .ok db ∧
      Restarted ingredients saved durable db := by
  obtain ⟨o, snapshot, db₁, db, hkept, hr⟩ := h.replays hC ho₁ o₂ id
  have hrev : db.runtime.currentRevision = durable.runtime.currentRevision :=
    hr.revision.trans h.revision
  have hle : saved.runtime.currentRevision ≤ durable.runtime.currentRevision :=
    h.revision ▸ (Change.le_highest ..).1
  have hslots : ∀ k, ListsInput ingredients k.kind → db.inputs k = durable.inputs k := by
    intro k hk
    rw [hr.inputs, write_congr ((hr.reloaded.sameInputs.slots k hk).trans (hkept.slots k hk))]
    exact h.slots k hk
  have hdated : ∀ k e, db.inputs k = some e → e.changedAt ≤ durable.runtime.currentRevision := by
    intro k e he
    by_cases hk : ListsInput ingredients k.kind
    · exact h.durableSound.slots k e (hslots k hk ▸ he)
    · rw [hr.unlisted_slot h.listed hk] at he
      cases he
  have hsound := h.savedSound.part o
  refine ⟨db, hr.restart, ⟨hslots, hrev⟩, ⟨hrev ▸ hdated, ?_, hr.sound_table hsound⟩, ?_⟩
  · rw [hrev]
    exact hr.native_cell hsound hle h.cells
  · intro i hi htype
    have hpart := hr.reloaded.parts i hi
    unfold PartRestored at hpart
    rw [htype] at hpart
    rw [hr.interned]
    exact hpart.1.trans (hkept.tables i hi htype)

end keeps

/-! ## 5. Every life keeps the files -/

section finished

variable (d : Disk) (snapshot log : Bytes)

/-- The files of a compaction that has run to its end. -/
theorem Disk.finished_files :
    (d.finished snapshot log true).cache = some snapshot ∧
      (d.finished snapshot log true).wal = some log := by
  obtain ⟨cache, temp, wal⟩ := d
  unfold finished compacted compactSteps
  cases wal <;> simp [CompactStep.run]

end finished

namespace Machine

/-- A machine without files, or with files that keep what is to be kept and, while a process runs,
what it has logged. -/
inductive Good (C : WalCodec V) (ingredients : List PersistableIngredient) : Machine V → Prop
  | new : Good C ingredients new
  | kept {m : Machine V} {cs : List (Change V)}
      (files : m.disk.Keeps C ingredients m.saved m.durable cs)
      (process : ∀ s ∈ m.process, Followed C ingredients m.saved s cs ∧
        m.disk.wal = some s.wal.flush.file ∧ s.database.Sound) : Good C ingredients m

variable [DecidableEq V] {C : WalCodec V} {ingredients : List PersistableIngredient}
  {m m' : Machine V}

omit [DecidableEq V] in
theorem of_compaction {db : Database V} {o : Order} {options : CacheSaveOptions} {threshold : Nat}
    {snapshot : Bytes} {wal : WalWriter}
    (h : compaction C ingredients db o options threshold = some (snapshot, wal)) :
    db.saveCacheWithOptions o C.toCodec ingredients options = .ok snapshot ∧
      WalWriter.create C db.runtime.currentRevision threshold = .ok wal := by
  unfold compaction at h
  split at h
  · next hsave hcreate => cases h; exact ⟨hsave, hcreate⟩
  · cases h

omit [DecidableEq V] in
/-- What was just saved, next to a log with nothing new. -/
theorem keeps_saved {d : Disk} {db : Database V} {o : Order} {snapshot : Bytes}
    {cs : List (Change V)} (hsound : db.Sound)
    (hkept : db.KeptAs o C.toCodec ingredients snapshot) (hcache : d.cache = some snapshot)
    (hwal : (d.wal = none ∧ cs = []) ∨ ∃ wal : WalWriter, d.wal = some wal.flush.file ∧
      Logged C wal cs ∧ wal.baseRevision = db.runtime.currentRevision)
    (hlisted : ∀ c ∈ cs, c.Listed ingredients) (hfits : ∀ c ∈ cs, c.Fits C)
    (hold : ∀ c ∈ cs, c.revision ≤ db.runtime.currentRevision)
    (hslots : ∀ k e, .slot k e ∉ cs)
    (hcells : ∀ k r, .cell k r ∈ cs → (ErasedCell.newReady r).state.Native
      db.runtime.currentRevision) :
    d.Keeps C ingredients db db cs where
  cache := ⟨o, snapshot, hkept, hcache⟩
  wal := hwal
  savedSound := hsound
  durableSound := hsound
  listed := hlisted
  fits := hfits
  slots k _ := by
    refine write_of_not_mem fun hmem => ?_
    obtain ⟨⟨k', e⟩, hw, rfl⟩ := List.mem_map.mp hmem
    obtain ⟨e', rfl, hslot⟩ := (mem_slotWrites _).mp hw
    exact hslots k' e' hslot
  revision := Nat.le_antisymm (Change.highest_le (Nat.le_refl _) hold) (Change.le_highest ..).1
  cells := hcells

omit [DecidableEq V] in
/-- **A compaction that runs to its end** leaves files that keep the database. -/
theorem good_compacted {c : Config V} {o : Order} {options : CacheSaveOptions} {threshold : Nat}
    (hC : C.RoundTrip) (hidle : c.Idle) (hnative : Native c) (hsound : c.world.database.Sound)
    (ho : o.Lists c.world.database)
    (hbase : c.world.database.SavesBase o C.toCodec ingredients options)
    (h : m.compacted C ingredients c o options threshold = some m') : Good C ingredients m' := by
  obtain ⟨⟨snapshot, wal⟩, hcompaction, rfl⟩ := Option.map_eq_some_iff.mp h
  obtain ⟨hsave, hcreate⟩ := of_compaction hcompaction
  obtain ⟨o', hkept⟩ := hbase.keptAs hC.toRoundTrip ho hsave
  obtain ⟨hcache, hwal⟩ := m.disk.finished_files snapshot wal.flush.file
  have hfollowed : Followed C ingredients c.world.database ⟨c, wal⟩ [] :=
    followed_created hidle hnative hsound hcreate
  refine .kept (keeps_saved hsound hkept hcache
    (.inr ⟨wal, hwal, hfollowed.logged, hfollowed.baseRevision⟩) nofun nofun nofun nofun nofun) ?_
  rintro s ⟨⟩
  exact ⟨hfollowed, hwal, hsound⟩

/-- **What a process starts with from good files.** -/
theorem Good.restarted (h : Good C ingredients m) (hC : C.RoundTrip)
    (hnd : (ingredients.map (·.kind)).Nodup) {o₁ : Order} (ho₁ : o₁.Lists m.saved)
    (o₂ : Order) :
    ∃ db, m.disk.restart C o₁ o₂ ingredients 1 = .ok db ∧
      Restarted ingredients m.saved m.durable db := by
  cases h with
  | new =>
    have hunique : ensureUniqueKinds [] ingredients = .ok () :=
      ensureUniqueKinds_ok_iff.mpr ⟨hnd, by simp⟩
    have hload : (Database.new 1).loadCache C.toCodec o₁ ingredients
        (.of (Machine.new : Machine V).disk.cache) = (.ok false, .new 1) := by
      unfold Database.loadCache Database.loadCacheWithOptions Database.loadCacheInner openCache
      rw [hunique]
      rfl
    exact ⟨.new 1, Disk.restart_eq hload rfl, ⟨fun _ _ => rfl, rfl⟩, Database.sound_new 1,
      fun _ _ _ => rfl⟩
  | kept files _ => exact files.restarted hC ho₁ o₂ 1

omit [DecidableEq V] in
/-- **A flush brings the files up to date.** -/
theorem keeps_synced {s : Logging V} {cs : List (Change V)} {o : Order} {n : Nat} {wal : WalWriter}
    (files : m.disk.Keeps C ingredients m.saved m.durable cs)
    (h : Followed C ingredients m.saved s cs) (hsound : s.database.Sound) (ho : o.Lists s.database)
    (hfits : s.database.ChangesFit o C ingredients s.wal.baseRevision)
    (happend : s.database.appendToWal o C ingredients s.wal = (.ok n, wal)) :
    ∃ done, Followed C ingredients m.saved { s with wal := wal.flush } (cs ++ done) ∧
      { m.disk with wal := some wal.flush.file }.Keeps C ingredients m.saved s.database
        (cs ++ done) := by
  obtain ⟨done, hdone, hlogged, hbase, hall⟩ := logged_appendIngredients h.logged happend
  have hfollowed := h.logs ho hfits hdone hlogged hbase
  have hslots : ∀ k e, .slot k e ∈ done → s.database.inputs k = some e := by
    intro k e hmem
    obtain ⟨i, -, hi⟩ := hdone _ hmem
    exact ((slot_mem_changes ho).mp hi).2.2.1
  have hlists : ∀ k e, ListsInput ingredients k.kind → s.database.inputs k = some e →
      m.saved.runtime.currentRevision < e.changedAt → .slot k e ∈ done := by
    rintro k e ⟨i, hi, hkind, htype⟩ he hlt
    refine hall n rfl i hi _ ((slot_mem_changes ho).mpr ⟨htype, hkind, he, ?_⟩)
    exact h.baseRevision ▸ hlt
  -- what was kept is not of the future
  have hle : m.durable.runtime.currentRevision ≤ s.database.runtime.currentRevision :=
    files.revision ▸ Change.highest_le h.comes.le h.revision
  refine ⟨done, { hfollowed with logged := hlogged.flush, baseRevision := hfollowed.baseRevision },
    files.cache, .inr ⟨wal, rfl, hlogged, hfollowed.baseRevision⟩, files.savedSound, hsound,
    hfollowed.listed, hfollowed.fits, fun k hk => ?_, hfollowed.recovered_revision hlists,
    fun k r hmem => ?_⟩
  · exact hfollowed.recovered_slot hslots fun e => hlists k e hk
  · rcases List.mem_append.mp hmem with hmem | hmem
    · exact (files.cells k r hmem).mono hle
    · obtain ⟨i, -, hi⟩ := hdone _ hmem
      exact h.native_record ((cell_mem_changes ho).mp hi).2.2.1

omit [DecidableEq V] in
/-- **A compaction that is cut short** leaves files that keep what was kept, or from the rename on
the database. -/
theorem good_stopped {s : Logging V} {cs : List (Change V)} {o : Order}
    {options : CacheSaveOptions} (createNewWal fails : Bool) {n : Nat} {snapshot : Bytes}
    {wal : WalWriter} (hC : C.RoundTrip)
    (files : m.disk.Keeps C ingredients m.saved m.durable cs)
    (h : Followed C ingredients m.saved s cs) (hwal : m.disk.wal = some s.wal.flush.file)
    (hsound : s.database.Sound) (ho : o.Lists s.database)
    (hbase : s.database.SavesBase o C.toCodec ingredients options)
    (hsame : n = 2 → s.wal.baseRevision = s.database.runtime.currentRevision)
    (hcompaction : compaction C ingredients s.database o options 0 = some (snapshot, wal)) :
    if n < 2 then
      (m.disk.stopped snapshot wal.flush.file createNewWal n fails).Keeps C ingredients m.saved
        m.durable cs
    else ∃ cs', (m.disk.stopped snapshot wal.flush.file createNewWal n fails).Keeps C ingredients
      s.database s.database cs' := by
  obtain ⟨hsave, hcreate⟩ := of_compaction hcompaction
  obtain ⟨o', hkept⟩ := hbase.keptAs hC.toRoundTrip ho hsave
  obtain ⟨hcache', hwal'⟩ := m.disk.stopped_files snapshot wal.flush.file createNewWal fails n
  split
  · next hn =>
    obtain ⟨hcache₁, hwal₁⟩ := m.disk.compacted_before snapshot wal.flush.file createNewWal hn
    obtain ⟨old, snapshot', hold, hcache⟩ := files.cache
    exact { files with
      cache := ⟨old, snapshot', hold, hcache'.trans (hcache₁.trans hcache)⟩
      wal := by rw [hwal', hwal₁]; exact files.wal }
  · next hn =>
    rcases Nat.eq_or_lt_of_le (Nat.le_of_not_lt hn) with rfl | hlt
    · obtain ⟨hcache₁, hwal₁⟩ := m.disk.compacted_between snapshot wal.flush.file createNewWal
      have hrev : m.saved.runtime.currentRevision = s.database.runtime.currentRevision :=
        h.baseRevision.symm.trans (hsame rfl)
      refine ⟨cs, keeps_saved hsound hkept (hcache'.trans hcache₁) (.inr ⟨s.wal, ?_, h.logged,
        hsame rfl⟩) h.listed h.fits h.revision (fun k e hmem => ?_) fun k r hmem => ?_⟩
      · rw [hwal', hwal₁, hwal]
      · -- nothing has changed since the log was started
        obtain ⟨e', he', hlt⟩ := h.slots k e hmem
        rw [hrev] at hlt
        exact absurd (h.comes.dated k e' he') (Nat.not_le_of_lt hlt)
      · have hle : m.durable.runtime.currentRevision ≤ s.database.runtime.currentRevision :=
          files.revision ▸ Change.highest_le h.comes.le h.revision
        exact (files.cells k r hmem).mono hle
    · obtain ⟨hcache₁, hwal₁⟩ := m.disk.compacted_after snapshot wal.flush.file createNewWal hlt
      obtain ⟨hlogged, hbase⟩ := logged_create hcreate
      refine ⟨[], keeps_saved hsound hkept (hcache'.trans hcache₁) ?_ nofun nofun nofun nofun
        nofun⟩
      rw [hwal']
      exact hwal₁.imp (fun hnone => ⟨hnone, rfl⟩) fun hnew => ⟨wal, hnew, hlogged, hbase⟩

omit [DecidableEq V] in
/-- A process that runs. -/
theorem Good.running {s : Logging V} (h : Good C ingredients m) (hprocess : m.process = some s) :
    ∃ cs, m.disk.Keeps C ingredients m.saved m.durable cs ∧
      Followed C ingredients m.saved s cs ∧ m.disk.wal = some s.wal.flush.file ∧
        s.database.Sound := by
  cases h with
  | new => cases hprocess
  | kept files process => exact ⟨_, files, process s hprocess⟩

/-- An operation of the process leaves the files as they are. -/
theorem Good.operate {S : Schema V} {fuel : Nat} {s : Logging V} {c : Config V} {op : Op V}
    (h : Good C ingredients m) (hprocess : m.process = some s)
    (hop : runOp S fuel s.config op = some c) (hl : op.label.Tracked ingredients) :
    Good C ingredients { m with process := some { s with config := c } } := by
  obtain ⟨cs, files, hfollowed, hwal, hsound⟩ := h.running hprocess
  have hfollowed' := hfollowed.operate hop hl
  obtain ⟨ls, hls, -⟩ := runOp_steps (P := Label.Tracked ingredients) hop hfollowed.idle hl
  refine .kept files ?_
  rintro s' ⟨⟩
  exact ⟨hfollowed', hwal, hfollowed'.sound (inverse_steps hls hsound.interned)⟩

/-- **Whatever happens on a machine keeps its files good.** -/
theorem Good.step {S : Schema V} {fuel : Nat} {l : MachineOp V} (h : Good C ingredients m)
    (hC : C.RoundTrip) (hnd : (ingredients.map (·.kind)).Nodup)
    (hs : Machine.step C ingredients S fuel m l = some m') (hl : l.Allowed C ingredients m) :
    Good C ingredients m' := by
  cases l with
  | start o₁ o₂ o options threshold =>
    obtain ⟨ho₁, ho⟩ := hl
    obtain ⟨db, hrestart, hrestarted⟩ := h.restarted hC hnd ho₁ o₂
    obtain ⟨ho, hbase⟩ := ho db hrestart
    simp only [Machine.step, hrestart] at hs
    split at hs
    · next hnone hok =>
      cases hok
      rw [← database_ofDatabase db] at ho hbase
      refine good_compacted hC (fun t ht => ht rfl) hrestarted.sound.native ?_ ho hbase hs
      rw [database_ofDatabase]
      exact hrestarted.sound
    · cases hs
  | op op =>
    obtain ⟨s, hprocess, hs⟩ := Option.bind_eq_some_iff.mp hs
    obtain ⟨c, hop, hs⟩ := Option.bind_eq_some_iff.mp hs
    cases hs
    exact h.operate hprocess hop hl
  | sync o =>
    obtain ⟨s, hprocess, hs⟩ := Option.bind_eq_some_iff.mp hs
    obtain ⟨cs, files, hfollowed, hwal, hsound⟩ := h.running hprocess
    obtain ⟨ho, hfits⟩ := hl s hprocess
    split at hs
    · cases hs
    · next happend =>
      cases hs
      obtain ⟨done, hfollowed', files'⟩ := keeps_synced files hfollowed hsound ho hfits happend
      refine .kept files' ?_
      rintro s' ⟨⟩
      exact ⟨hfollowed', by simp, hsound⟩
  | compact o options threshold =>
    obtain ⟨s, hprocess, hs⟩ := Option.bind_eq_some_iff.mp hs
    obtain ⟨cs, files, hfollowed, hwal, hsound⟩ := h.running hprocess
    obtain ⟨ho, hbase⟩ := hl s hprocess
    exact good_compacted hC hfollowed.idle hfollowed.native hsound ho hbase hs
  | crash =>
    cases hs
    cases h with
    | new => exact .new
    | kept files _ => exact .kept files nofun
  | crashCompacting o options createNewWal n fails =>
    obtain ⟨s, hprocess, hs⟩ := Option.bind_eq_some_iff.mp hs
    obtain ⟨⟨snapshot, wal⟩, hcompaction, hs⟩ := Option.bind_eq_some_iff.mp hs
    obtain ⟨cs, files, hfollowed, hwal, hsound⟩ := h.running hprocess
    obtain ⟨ho, hbase, hsame⟩ := hl s hprocess
    have hstopped := good_stopped createNewWal fails hC files hfollowed hwal hsound ho hbase hsame
      hcompaction
    by_cases hn : n < 2
    · simp only [if_pos hn] at hs hstopped
      cases hs
      exact .kept hstopped nofun
    · simp only [if_neg hn] at hs hstopped
      cases hs
      obtain ⟨cs', files'⟩ := hstopped
      exact .kept files' nofun

end Machine

namespace Lives

open RoundTrip

/-- A cache without records. -/
def blankFile : CacheFile :=
  ⟨formatVersion, 0, [⟨0, "items", .input, []⟩, ⟨1, "totals", .derived, []⟩,
    ⟨2, "names", .interned, []⟩]⟩

def codec : WalCodec Nat :=
  .ofTable ⟨[blankFile], [], [], []⟩ [1]
    ⟨[⟨walFormatVersion, 0⟩], [⟨1, 0, .set [] []⟩], [[]]⟩

theorem roundTrip_codec : codec.RoundTrip := WalCodec.roundTrip_ofTable ..

/-- A database with nothing but the slot. -/
theorem lists_slot {db : Database Nat} (hinputs : ∀ k, k ≠ item → db.inputs k = none)
    (hcells : ∀ k, db.cells k = .new) (hinterned : ∀ kind, db.interned kind = .empty) :
    order.Lists db where
  inputs_nodup _ := List.nodup_singleton _
  inputs k e he := by
    by_cases hk : k = item
    · rw [hk]
      exact List.mem_singleton.mpr rfl
    · rw [hinputs k hk] at he
      cases he
  cells_nodup _ := .nil
  cells k r hr := by
    rw [hcells] at hr
    cases hr
  ids_nodup _ := List.nodup_singleton _
  ids kind id v hv := by
    rw [hinterned] at hv
    cases hv

/-- A process starts without files, sets the slot and flushes that, and dies. -/
structure Died (m₀ m₁ m₂ m₃ : Machine Nat) : Prop where
  start : Machine.step codec ingredients schema 0 .new (.start order order order .default 100) =
    some m₀
  set : Machine.step codec ingredients schema 0 m₀ (.op (.mutate 0 item (some 1))) = some m₁
  sync : Machine.step codec ingredients schema 0 m₁ (.sync order) = some m₂
  crash : Machine.step codec ingredients schema 0 m₂ .crash = some m₃

section died

variable {m₀ m₁ m₂ m₃ : Machine Nat}

/-- What was flushed. -/
theorem Died.kept (h : Died m₀ m₁ m₂ m₃) : order.Lists m₃.saved ∧
    m₃.durable.inputs item = some ⟨some 1, 1⟩ ∧ m₃.durable.runtime.currentRevision = 1 := by
  obtain ⟨hstart, hset, hsync, hcrash⟩ := h
  cases hstart
  cases hset
  cases hsync
  cases hcrash
  exact ⟨lists_slot (fun _ _ => rfl) (fun _ => rfl) fun _ => rfl, rfl, rfl⟩

end died

end Lives

end Picante

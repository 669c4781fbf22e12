/-
# The write-ahead log

What is appended to a log after a cache was saved, and read back after it was loaded (`wal.rs`,
and `append_to_wal` and `replay_wal` of `persist.rs`).

* The log starts with a header that names the revision of the cache it continues (`create`).
* `appendToWal` appends, for every listed ingredient, the slots and the ready cells that have
  changed since that revision; an interned ingredient has nothing to append.
* `replayWal` applies the entries of the log one after another, moves the revision to the highest
  of them, and rebuilds the dependency graph.

A writer buffers what is appended, and what was flushed is in the file.  That the writing itself may
fail is left out.
-/
import Picante.Persist.File
import Picante.Framing.Basic

namespace Picante

open Framing

variable {V : Type}

/-! ## 1. The file -/

/-- The header of a log. -/
structure WalHeader where
  formatVersion : Nat
  baseRevision : Revision
  deriving DecidableEq, Repr

/-- What an entry does to its ingredient, with encoded keys and values. -/
inductive WalOperation where
  | set (key value : Bytes)
  | delete (key : Bytes)
  deriving DecidableEq, Repr

/-- An entry of a log. -/
structure WalEntry where
  revision : Revision
  kindId : QueryKindId
  operation : WalOperation
  deriving DecidableEq, Repr

/-- The version written, and the only one that is read. -/
def walFormatVersion : Nat := 1

/-- The first bytes of every log: `PICANTE` and a zero. -/
def walMagic : Bytes := [80, 73, 67, 65, 78, 84, 69, 0]

/-- The bytes of a length. -/
def walLengthBytes : Nat := 4

/-- A header longer than this is refused. -/
def maxHeaderLen : Nat := 1000000

/-- An entry longer than this is refused. -/
def maxEntryLen : Nat := 100000000

/-- The encoders and decoders of a log, besides those of a cache file.  The entry of a cell holds
its key and the same record as a cache file does. -/
structure WalCodec (V : Type) extends Codec V where
  encodeHeader : WalHeader → PicanteResult Bytes
  decodeHeader : Bytes → PicanteResult WalHeader
  encodeEntry : WalEntry → PicanteResult Bytes
  decodeEntry : Bytes → PicanteResult WalEntry
  encodeKey : QueryKindId → Key → PicanteResult Bytes
  decodeKey : QueryKindId → Bytes → PicanteResult Key
  encodeValue : QueryKindId → V → PicanteResult Bytes
  decodeValue : QueryKindId → Bytes → PicanteResult V

/-- What is encoded is decoded to the same, and a header, two numbers, is short. -/
structure WalCodec.RoundTrip (C : WalCodec V) : Prop extends C.toCodec.RoundTrip where
  header : ∀ {h bytes}, C.encodeHeader h = .ok bytes → C.decodeHeader bytes = .ok h
  header_length : ∀ {h bytes}, C.encodeHeader h = .ok bytes → bytes.length ≤ maxHeaderLen
  entry : ∀ {e bytes}, C.encodeEntry e = .ok bytes → C.decodeEntry bytes = .ok e
  key : ∀ {kind key bytes}, C.encodeKey kind key = .ok bytes → C.decodeKey kind bytes = .ok key
  value : ∀ {kind v bytes}, C.encodeValue kind v = .ok bytes → C.decodeValue kind bytes = .ok v

/-- The data a log codec of the simplest kind can encode, besides those of a cache file. -/
structure WalCodec.Table where
  headers : List WalHeader
  entries : List WalEntry
  keys : List Key

/-- The codec of a table: a datum is encoded as its place in it. -/
def WalCodec.ofTable [DecidableEq V] (t : Codec.Table V) (values : List V) (t' : WalCodec.Table) :
    WalCodec V where
  toCodec := .ofTable t
  encodeHeader := Codec.place (t'.headers.take (maxHeaderLen + 1))
  decodeHeader := Codec.lookup (t'.headers.take (maxHeaderLen + 1))
  encodeEntry := Codec.place t'.entries
  decodeEntry := Codec.lookup t'.entries
  encodeKey _ := Codec.place t'.keys
  decodeKey _ := Codec.lookup t'.keys
  encodeValue _ := Codec.place values
  decodeValue _ := Codec.lookup values

theorem WalCodec.roundTrip_ofTable [DecidableEq V] (t : Codec.Table V) (values : List V)
    (t' : WalCodec.Table) : (ofTable t values t').RoundTrip where
  toRoundTrip := Codec.roundTrip_ofTable t
  header := Codec.lookup_of_place
  header_length {h bytes} hplace := by
    simp only [ofTable, Codec.place] at hplace
    split at hplace
    · next hmem =>
      cases hplace
      have hlt := List.idxOf_lt_length_of_mem hmem
      rw [List.length_take] at hlt
      rw [List.length_replicate]
      omega
    · cases hplace
  entry := Codec.lookup_of_place
  key := Codec.lookup_of_place
  value := Codec.lookup_of_place

/-! ## 2. Writing -/

/-- `WalWriter`: the bytes in its file, those buffered, the revision the log starts from, and when
it flushes by itself. -/
structure WalWriter where
  file : Bytes
  buffer : Bytes
  baseRevision : Revision
  entriesSinceFlush : Nat
  autoFlushThreshold : Nat
  deriving DecidableEq, Repr

namespace WalWriter

/-- All that was written so far. -/
def written (wal : WalWriter) : Bytes := wal.file ++ wal.buffer

/-- Writes the buffered bytes to the file. -/
def flush (wal : WalWriter) : WalWriter :=
  { wal with file := wal.file ++ wal.buffer, buffer := [], entriesSinceFlush := 0 }

@[simp] theorem file_flush (wal : WalWriter) : wal.flush.file = wal.written := rfl

@[simp] theorem written_flush (wal : WalWriter) : wal.flush.written = wal.written :=
  List.append_nil _

@[simp] theorem baseRevision_flush (wal : WalWriter) :
    wal.flush.baseRevision = wal.baseRevision := rfl

/-- `create_with_threshold`: a log with nothing but its header. -/
def create (C : WalCodec V) (baseRevision : Revision) (autoFlushThreshold : Nat) :
    PicanteResult WalWriter := do
  let header ← C.encodeHeader ⟨walFormatVersion, baseRevision⟩
  return ⟨walMagic ++ frame walLengthBytes header, [], baseRevision, 0, autoFlushThreshold⟩

/-- Appends an entry. -/
def append (C : WalCodec V) (wal : WalWriter) (entry : WalEntry) : PicanteResult WalWriter := do
  let bytes ← C.encodeEntry entry
  let wal := { wal with
    buffer := wal.buffer ++ frame walLengthBytes bytes
    entriesSinceFlush := wal.entriesSinceFlush + 1 }
  return if wal.autoFlushThreshold ≤ wal.entriesSinceFlush then wal.flush else wal

end WalWriter

/-- A change as an ingredient hands it over: its revision, the encoded key, and the encoded value
unless the key was removed. -/
abbrev EncodedChange := Revision × Bytes × Option Bytes

/-- Encodes a changed slot. -/
def WalCodec.encodeSlot (C : WalCodec V) (kind : QueryKindId) (key : Key) (e : InputEntry V) :
    PicanteResult EncodedChange := do
  let keyBytes ← C.encodeKey kind key
  match e.value with
  | some v =>
    let valueBytes ← C.encodeValue kind v
    return (e.changedAt, keyBytes, some valueBytes)
  | none => return (e.changedAt, keyBytes, none)

/-- Encodes a changed cell. -/
def WalCodec.encodeCell (C : WalCodec V) (kind : QueryKindId) (key : Key) (r : DerivedRecord V) :
    PicanteResult EncodedChange := do
  let keyBytes ← C.encodeKey kind key
  let valueBytes ← C.encodeDerived kind key r
  return (r.changedAt, keyBytes, some valueBytes)

namespace Database

variable (db : Database V) (o : Order)

/-- The slots of a kind that changed after a revision. -/
def changedInputs (kind : QueryKindId) (since : Revision) : List (Key × InputEntry V) :=
  (db.inputRecords o kind).filter fun s => since < s.2.changedAt

/-- The ready cells of a kind that changed after a revision. -/
def changedCells (kind : QueryKindId) (since : Revision) : List (Key × DerivedRecord V) :=
  (db.derivedRecords o kind).filter fun s => since < s.2.changedAt

/-- The changes of one ingredient after a revision. -/
def saveIncrementalRecords (C : WalCodec V) (i : PersistableIngredient) (since : Revision) :
    PicanteResult (List EncodedChange) :=
  match i.sectionType with
  | .input => (db.changedInputs o i.kind since).mapM fun (key, e) => C.encodeSlot i.kind key e
  | .derived => (db.changedCells o i.kind since).mapM fun (key, r) => C.encodeCell i.kind key r
  | .interned => .ok []

end Database

/-- The entry of a change. -/
def EncodedChange.entry (kind : QueryKindId) : EncodedChange → WalEntry
  | (revision, key, some value) => ⟨revision, kind, .set key value⟩
  | (revision, key, none) => ⟨revision, kind, .delete key⟩

/-- Appends the changes of one ingredient, up to the first whose entry cannot be encoded; what was
appended before it stays. -/
def appendChanges (C : WalCodec V) (kind : QueryKindId) :
    Nat → WalWriter → List EncodedChange → PicanteResult Nat × WalWriter
  | count, wal, [] => (.ok count, wal)
  | count, wal, change :: rest =>
    match wal.append C (change.entry kind) with
    | .error e => (.error e, wal)
    | .ok wal => appendChanges C kind (count + 1) wal rest

/-- Appends the changes of the listed ingredients one after another. -/
def Database.appendIngredients (db : Database V) (o : Order) (C : WalCodec V) :
    Nat → WalWriter → List PersistableIngredient → PicanteResult Nat × WalWriter
  | count, wal, [] => (.ok count, wal)
  | count, wal, i :: rest =>
    match db.saveIncrementalRecords o C i wal.baseRevision with
    | .error e => (.error e, wal)
    | .ok changes =>
      match appendChanges C i.kind count wal changes with
      | (.error e, wal) => (.error e, wal)
      | (.ok count, wal) => db.appendIngredients o C count wal rest

/-- `append_to_wal`: how many entries were appended. -/
def Database.appendToWal (db : Database V) (o : Order) (C : WalCodec V)
    (ingredients : List PersistableIngredient) (wal : WalWriter) :
    PicanteResult Nat × WalWriter :=
  db.appendIngredients o C 0 wal ingredients

/-! ## 3. Reading -/

/-- What a read reports when the file ends before it. -/
def eofMessage : String := "failed to fill whole buffer"

/-- `WalReader::open`: the header of a log, and what follows it. -/
def WalCodec.openWal (C : WalCodec V) (bytes : Bytes) : PicanteResult (WalHeader × Bytes) :=
  match takeExact walMagic.length bytes with
  | none => .error (.cache ("Failed to read WAL magic bytes: " ++ eofMessage))
  | some (magic, bytes) =>
    if magic ≠ walMagic then
      .error (.cache ("Invalid WAL magic bytes (expected " ++ toString walMagic ++ ", got "
        ++ toString magic ++ ")"))
    else
      match unframe walLengthBytes maxHeaderLen bytes with
      | .done => .error (.cache ("Failed to read WAL header length: " ++ eofMessage))
      | .tooLong length => .error (.cache ("WAL header length (" ++ toString length
          ++ " bytes) exceeds maximum allowed (" ++ toString maxHeaderLen
          ++ " bytes) - file may be corrupted"))
      | .truncated => .error (.cache ("Failed to read WAL header: " ++ eofMessage))
      | .payload header rest => do
        let header ← C.decodeHeader header
        if header.formatVersion ≠ walFormatVersion then
          throw (.cache ("Unsupported WAL format version (expected " ++ toString walFormatVersion
            ++ ", got " ++ toString header.formatVersion ++ ")"))
        return (header, rest)

/-- Files an interned value of a log. -/
def InternedIngredient.replay [DecidableEq V] (t : InternedIngredient V) (id : Nat) (v : V) :
    InternedIngredient V :=
  { t.insert id v with nextId := if t.nextId ≤ id then id + 1 else t.nextId }

namespace Database

variable [DecidableEq V]

/-- `apply_wal_entry` of the three kinds of ingredients. -/
def applyWalEntry (C : WalCodec V) (db : Database V) (i : PersistableIngredient)
    (revision : Revision) (keyBytes : Bytes) (valueBytes : Option Bytes) :
    PicanteResult (Database V) :=
  match i.sectionType with
  | .input => do
    let key ← C.decodeKey i.kind keyBytes
    match valueBytes with
    | some bytes =>
      let v ← C.decodeValue i.kind bytes
      return { db with inputs := db.inputs.store ⟨i.kind, key⟩ (some v) revision }
    | none => return { db with inputs := db.inputs.store ⟨i.kind, key⟩ none revision }
  | .derived => do
    let key ← C.decodeKey i.kind keyBytes
    match valueBytes with
    | some bytes =>
      let (_, r) ← C.decodeDerived i.kind bytes
      return { db with cells := Function.update db.cells ⟨i.kind, key⟩ (.newReady r) }
    | none => return { db with cells := Function.update db.cells ⟨i.kind, key⟩ .new }
  | .interned =>
    match valueBytes with
    | some bytes => do
      let (id, v) ← C.decodeInterned i.kind bytes
      return { db with
        interned := Function.update db.interned i.kind ((db.interned i.kind).replay id v) }
    | none => return db

/-- Applies an entry; the entry of an unknown kind is skipped (`none`). -/
def applyEntry (C : WalCodec V) (ingredients : List PersistableIngredient) (db : Database V)
    (entry : WalEntry) : PicanteResult (Option (Database V)) :=
  -- of two ingredients of one kind the later one is in the map
  match ingredients.reverse.find? (·.kind = entry.kindId) with
  | none => .ok none
  | some i =>
    match entry.operation with
    | .set key value => (db.applyWalEntry C i entry.revision key (some value)).map some
    | .delete key => (db.applyWalEntry C i entry.revision key none).map some

/-- Applies the entries of a log one after another, up to the first that cannot be read or
applied: how many there were, and the highest of their revisions. -/
def replayEntries (C : WalCodec V) (ingredients : List PersistableIngredient) (db : Database V)
    (count : Nat) (maxRevision : Revision) (bytes : Bytes) :
    PicanteResult (Nat × Revision) × Database V :=
  match _h : unframe walLengthBytes maxEntryLen bytes with
  | .done => (.ok (count, maxRevision), db)
  | .tooLong length => (.error (.cache ("WAL entry length (" ++ toString length
      ++ " bytes) exceeds maximum allowed (" ++ toString maxEntryLen
      ++ " bytes) - file may be corrupted")), db)
  | .truncated => (.error (.cache ("Failed to read WAL entry: " ++ eofMessage)), db)
  | .payload entryBytes rest =>
    match C.decodeEntry entryBytes with
    | .error e => (.error e, db)
    | .ok entry =>
      match db.applyEntry C ingredients entry with
      | .error e => (.error e, db)
      | .ok none => replayEntries C ingredients db count maxRevision rest
      | .ok (some db) =>
        replayEntries C ingredients db (count + 1) (max maxRevision entry.revision) rest
termination_by bytes.length
decreasing_by
  all_goals
    have hlength := length_of_unframe _h
    unfold walLengthBytes at hlength
    omega

/-- `replay_wal`: how many entries were applied. -/
def replayWal (C : WalCodec V) (o : Order) (ingredients : List PersistableIngredient)
    (file : FileRead) (db : Database V) : PicanteResult Nat × Database V :=
  match file with
  | .notFound => (.ok 0, db)
  | .failed message => (.error (.cache message), db)
  | .read bytes =>
    match C.openWal bytes with
    | .error e => (.error e, db)
    | .ok (header, rest) =>
      let base := header.baseRevision
      if db.runtime.currentRevision ≠ base then
        (.error (.cache ("WAL base revision (" ++ toString base
          ++ ") does not match snapshot revision (" ++ toString db.runtime.currentRevision
          ++ ")")), db)
      else
        match db.replayEntries C ingredients 0 base rest with
        | (.error e, db) => (.error e, db)
        | (.ok (count, maxRevision), db) =>
          let db :=
            if base < maxRevision then
              { db with runtime := db.runtime.setCurrentRevision maxRevision }
            else db
          (.ok count, ingredients.foldl (restoreRuntimeState o) db)

end Database

end Picante

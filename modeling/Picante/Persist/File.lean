/-
# Cache files

What a database saves and loads (`persist.rs` and the persistence methods of the three kinds of
ingredients).  A cache file has a section for every listed ingredient, and a section holds the
ingredient's records, each encoded on its own.

* `saveCache` collects the sections, ingredient by ingredient, then reads the revision.
* `loadCache` checks the file as a whole, clears the database, applies the sections one after
  another, rebuilds the dependency graph and sets the revision; on the first error it stops where
  it is.

The codec (`facet_postcard`) is not code of this repository, and is a parameter (`Codec`).  So is
the order in which iterating over a hash map yields its keys (`Order`).
-/
import Picante.World
import Picante.Tables.Basic

namespace Picante

variable {V : Type}

/-! ## 1. Files and codecs -/

/-- Encoded bytes. -/
abbrev Bytes := List UInt8

/-- An ingredient in the list that is saved or loaded. -/
structure PersistableIngredient where
  kind : QueryKindId
  kindName : String
  sectionType : SectionType
  deriving DecidableEq, Repr

/-- The section of one ingredient. -/
structure Section where
  kindId : QueryKindId
  kindName : String
  sectionType : SectionType
  records : List Bytes
  deriving DecidableEq, Repr

/-- A cache file. -/
structure CacheFile where
  formatVersion : Nat
  currentRevision : Revision
  sections : List Section
  deriving DecidableEq, Repr

/-- The version written, and the only one that is read. -/
def formatVersion : Nat := 1

/-- What the record of a derived query holds besides its key. -/
structure DerivedRecord (V : Type) where
  value : V
  verifiedAt : Revision
  changedAt : Revision
  deps : List Dep
  deriving DecidableEq, Repr

/-- The encoders and decoders of whole files and of the records of each kind.  Encoding a record
decodes its key first, and decoding it encodes the key again. -/
structure Codec (V : Type) where
  encodeFile : CacheFile → PicanteResult Bytes
  decodeFile : Bytes → PicanteResult CacheFile
  encodeInput : QueryKindId → Key → InputEntry V → PicanteResult Bytes
  decodeInput : QueryKindId → Bytes → PicanteResult (Key × InputEntry V)
  encodeDerived : QueryKindId → Key → DerivedRecord V → PicanteResult Bytes
  decodeDerived : QueryKindId → Bytes → PicanteResult (Key × DerivedRecord V)
  encodeInterned : QueryKindId → Nat → V → PicanteResult Bytes
  decodeInterned : QueryKindId → Bytes → PicanteResult (Nat × V)

/-- What is encoded is decoded to the same. -/
structure Codec.RoundTrip (C : Codec V) : Prop where
  file : ∀ {f bytes}, C.encodeFile f = .ok bytes → C.decodeFile bytes = .ok f
  input : ∀ {kind key e bytes}, C.encodeInput kind key e = .ok bytes →
    C.decodeInput kind bytes = .ok (key, e)
  derived : ∀ {kind key r bytes}, C.encodeDerived kind key r = .ok bytes →
    C.decodeDerived kind bytes = .ok (key, r)
  interned : ∀ {kind id v bytes}, C.encodeInterned kind id v = .ok bytes →
    C.decodeInterned kind bytes = .ok (id, v)

/-- The data a codec of the simplest kind can encode: a datum is encoded as its place in a table. -/
structure Codec.Table (V : Type) where
  files : List CacheFile
  inputs : List (Key × InputEntry V)
  derived : List (Key × DerivedRecord V)
  interned : List (Nat × V)

/-- The place of `x` in the table. -/
def Codec.place {A : Type} [DecidableEq A] (xs : List A) (x : A) : PicanteResult Bytes :=
  if x ∈ xs then .ok (List.replicate (xs.idxOf x) 0) else .error (.encode "record" "not in table")

/-- What is at a place of the table. -/
def Codec.lookup {A : Type} (xs : List A) (bytes : Bytes) : PicanteResult A :=
  match xs[bytes.length]? with
  | some x => .ok x
  | none => .error (.decode "record" "not in table")

theorem Codec.lookup_of_place {A : Type} [DecidableEq A] {xs : List A} {x : A} {bytes : Bytes}
    (h : Codec.place xs x = .ok bytes) : Codec.lookup xs bytes = .ok x := by
  unfold place at h
  split at h
  · next hx =>
    cases h
    have hlt := List.idxOf_lt_length_of_mem hx
    simp [lookup, List.getElem?_eq_getElem hlt]
  · cases h

/-- The codec of a table. -/
def Codec.ofTable [DecidableEq V] (t : Codec.Table V) : Codec V where
  encodeFile := place t.files
  decodeFile := lookup t.files
  encodeInput _ key e := place t.inputs (key, e)
  decodeInput _ := lookup t.inputs
  encodeDerived _ key r := place t.derived (key, r)
  decodeDerived _ := lookup t.derived
  encodeInterned _ id v := place t.interned (id, v)
  decodeInterned _ := lookup t.interned

theorem Codec.roundTrip_ofTable [DecidableEq V] (t : Codec.Table V) : (ofTable t).RoundTrip where
  file := lookup_of_place
  input := lookup_of_place
  derived := lookup_of_place
  interned := lookup_of_place

/-! ## 2. A database -/

/-- A database as persistence sees it: a view, and the interning tables. -/
structure Database (V : Type) extends View V where
  interned : QueryKindId → InternedIngredient V

/-- The database of a world. -/
def World.database (w : World V) : Database V := { w.views 0 with interned := w.interned }

/-- Puts another database in its place. -/
def World.withDatabase (w : World V) (db : Database V) : World V :=
  { w with
    views := Function.update w.views 0 db.toView
    interned := db.interned }

/-- The record a ready cell is saved as. -/
def ErasedState.record : ErasedState V → Option (DerivedRecord V)
  | .ready r => some ⟨r.value, r.verifiedAt, r.changedAt, r.deps⟩
  | _ => none

/-- The cell a record is loaded into. -/
def ErasedCell.newReady (r : DerivedRecord V) : ErasedCell V :=
  ⟨.ready ⟨r.value, r.verifiedAt, r.changedAt, r.deps, false⟩, 0⟩

/-- What iterating over the maps of a database yields: the keys of the slots and cells of every
kind, and the ids of every interning table. -/
structure Order where
  inputs : QueryKindId → List Key
  cells : QueryKindId → List Key
  ids : QueryKindId → List Nat

/-- Every slot, cell and id of the database comes up once. -/
structure Order.Lists (o : Order) (db : Database V) : Prop where
  inputs_nodup : ∀ kind, (o.inputs kind).Nodup
  inputs : ∀ k e, db.inputs k = some e → k.key ∈ o.inputs k.kind
  cells_nodup : ∀ kind, (o.cells kind).Nodup
  cells : ∀ k r, (db.cells k).state.record = some r → k.key ∈ o.cells k.kind
  ids_nodup : ∀ kind, (o.ids kind).Nodup
  ids : ∀ kind id v, (db.interned kind).byId id = some v → id ∈ o.ids kind

namespace Database

variable (db : Database V) (o : Order)

/-- The stored slots of a kind. -/
def inputRecords (kind : QueryKindId) : List (Key × InputEntry V) :=
  Tables.entries (o.inputs kind) fun key => db.inputs ⟨kind, key⟩

/-- The ready cells of a kind. -/
def derivedRecords (kind : QueryKindId) : List (Key × DerivedRecord V) :=
  Tables.entries (o.cells kind) fun key => (db.cells ⟨kind, key⟩).state.record

/-- The interned values of a kind. -/
def internedRecords (kind : QueryKindId) : List (Nat × V) :=
  Tables.entries (o.ids kind) (db.interned kind).byId

/-! ## 3. Saving -/

/-- The records of one ingredient. -/
def saveRecords (C : Codec V) (i : PersistableIngredient) : PicanteResult (List Bytes) :=
  match i.sectionType with
  | .input => (db.inputRecords o i.kind).mapM fun (key, e) => C.encodeInput i.kind key e
  | .derived => (db.derivedRecords o i.kind).mapM fun (key, r) => C.encodeDerived i.kind key r
  | .interned => (db.internedRecords o i.kind).mapM fun (id, v) => C.encodeInterned i.kind id v

/-- The section of one ingredient. -/
def saveSection (C : Codec V) (i : PersistableIngredient) : PicanteResult Section :=
  (db.saveRecords o C i).map fun records => ⟨i.kind, i.kindName, i.sectionType, records⟩

end Database

/-- The first kind id that is listed a second time is an error. -/
def ensureUniqueKinds : List QueryKindId → List PersistableIngredient → PicanteResult Unit
  | _, [] => .ok ()
  | seen, i :: rest =>
    if i.kind ∈ seen then .error (.cache ("duplicate ingredient kind id " ++ toString i.kind))
    else ensureUniqueKinds (i.kind :: seen) rest

/-- `save_cache`: the content of the file it writes. -/
def Database.saveCache (db : Database V) (o : Order) (C : Codec V)
    (ingredients : List PersistableIngredient) : PicanteResult Bytes := do
  ensureUniqueKinds [] ingredients
  let sections ← ingredients.mapM (db.saveSection o C)
  C.encodeFile ⟨formatVersion, db.runtime.currentRevision, sections⟩

/-! ## 4. Loading -/

/-- Inserts the records of an input section, up to the first that does not decode. -/
def loadInputs (C : Codec V) (kind : QueryKindId) :
    Inputs V → List Bytes → PicanteResult Unit × Inputs V
  | inputs, [] => (.ok (), inputs)
  | inputs, bytes :: rest =>
    match C.decodeInput kind bytes with
    | .error e => (.error e, inputs)
    | .ok (key, entry) => loadInputs C kind (Function.update inputs ⟨kind, key⟩ (some entry)) rest

/-- Inserts the records of a derived section, up to the first that does not decode. -/
def loadDerived (C : Codec V) (kind : QueryKindId) :
    (DynKey → ErasedCell V) → List Bytes → PicanteResult Unit × (DynKey → ErasedCell V)
  | cells, [] => (.ok (), cells)
  | cells, bytes :: rest =>
    match C.decodeDerived kind bytes with
    | .error e => (.error e, cells)
    | .ok (key, r) =>
      loadDerived C kind (Function.update cells ⟨kind, key⟩ (.newReady r)) rest

/-- Files a value under an id, in both directions. -/
def InternedIngredient.insert {I : Type} [DecidableEq V] [DecidableEq I]
    (t : InternedIngredient V I) (id : I) (v : V) : InternedIngredient V I :=
  { t with
    byValue := Function.update t.byValue v (some id)
    byId := Function.update t.byId id (some v) }

/-- Inserts the records of an interned section, up to the first that does not decode or repeats an
id or a value; the next id is set at the end only. -/
def loadInterned {I : Type} [DecidableEq V] [DecidableEq I] [InternedIngredient.Saturates I]
    (C : Codec V) (i : PersistableIngredient) :
    InternedIngredient V I → I → List Bytes → PicanteResult Unit × InternedIngredient V I
  | t, maxId, [] => (.ok (), { t with nextId := InternedIngredient.Saturates.saturatingSucc maxId })
  | t, maxId, bytes :: rest =>
    match C.decodeInterned i.kind bytes with
    | .error e => (.error e, t)
    | .ok (n, v) =>
      let id : I := InternedIngredient.Saturates.ofRecord n
      if (t.byId id).isSome then
        (.error (.cache ("duplicate interned id " ++ toString id ++ " in `" ++ i.kindName ++ "`")),
          t)
      else
        match t.byValue v with
        | some existing =>
          -- the value is filed under its new id before it is found to be a duplicate
          (.error (.cache ("duplicate interned value for `" ++ i.kindName ++ "` (ids "
            ++ toString existing ++ " and " ++ toString id ++ ")")),
            { t with byValue := Function.update t.byValue v (some id) })
        | none => loadInterned C i (t.insert id v) (max maxId id) rest

namespace Database

variable [DecidableEq V]

/-- Clears one ingredient. -/
def clear (db : Database V) (i : PersistableIngredient) : Database V :=
  match i.sectionType with
  | .input => { db with inputs := fun k => if k.kind = i.kind then none else db.inputs k }
  | .derived => { db with cells := fun k => if k.kind = i.kind then .new else db.cells k }
  | .interned => { db with interned := Function.update db.interned i.kind .empty }

/-- Loads the records of one ingredient; an interned ingredient clears itself first. -/
def loadRecords (C : Codec V) (db : Database V) (i : PersistableIngredient)
    (records : List Bytes) : PicanteResult Unit × Database V :=
  match i.sectionType with
  | .input =>
    let (result, inputs) := loadInputs C i.kind db.inputs records
    (result, { db with inputs })
  | .derived =>
    let (result, cells) := loadDerived C i.kind db.cells records
    (result, { db with cells })
  | .interned =>
    let (result, t) := loadInterned C i .empty 0 records
    (result, { db with interned := Function.update db.interned i.kind t })

/-- Applies the sections one after another, up to the first that is not accepted; the section of
an unknown kind is skipped. -/
def loadSections (C : Codec V) (ingredients : List PersistableIngredient) :
    Database V → List Section → PicanteResult Unit × Database V
  | db, [] => (.ok (), db)
  | db, s :: rest =>
    match ingredients.find? (·.kind = s.kindId) with
    | none => loadSections C ingredients db rest
    | some i =>
      if s.kindName ≠ i.kindName then
        (.error (.cache ("kind name mismatch for id " ++ toString s.kindId ++ ": file has `"
          ++ s.kindName ++ "`, runtime has `" ++ i.kindName ++ "`")), db)
      else if s.sectionType ≠ i.sectionType then
        (.error (.cache ("section type mismatch for id " ++ toString s.kindId ++ " (`"
          ++ s.kindName ++ "`)")), db)
      else
        match db.loadRecords C i s.records with
        | (.error e, db) => (.error e, db)
        | (.ok (), db) => loadSections C ingredients db rest

/-- Files the dependencies of a cell, if it is ready. -/
def restoreCell (kind : QueryKindId) (db : Database V) (key : Key) : Database V :=
  match (db.cells ⟨kind, key⟩).state.record with
  | some r => { db with runtime := db.runtime.updateQueryDeps ⟨kind, key⟩ r.deps }
  | none => db

/-- Rebuilds what the runtime derives from one ingredient: only the derived ones have anything. -/
def restoreRuntimeState (o : Order) (db : Database V) (i : PersistableIngredient) : Database V :=
  match i.sectionType with
  | .derived => (o.cells i.kind).foldl (restoreCell i.kind) db
  | _ => db

/-- The database before the sections are applied. -/
def cleared (db : Database V) (ingredients : List PersistableIngredient) : Database V :=
  ingredients.foldl clear { db with runtime := db.runtime.clearDependencyGraph }

/-- The database after they were. -/
def restored (o : Order) (db : Database V) (ingredients : List PersistableIngredient)
    (rev : Revision) : Database V :=
  let db := ingredients.foldl (restoreRuntimeState o) db
  { db with runtime := db.runtime.setCurrentRevision rev }

end Database

/-- What reading the file gives. -/
inductive FileRead where
  | notFound
  | failed (message : String)
  | read (bytes : Bytes)

/-- What to do with a file that is not accepted. -/
inductive OnCorruptCache where
  | error
  | ignore
  | delete
  deriving DecidableEq, Repr

/-- Options for loading. -/
structure CacheLoadOptions where
  maxBytes : Option Nat
  onCorrupt : OnCorruptCache

/-- The options of `load_cache`. -/
def CacheLoadOptions.default : CacheLoadOptions := ⟨none, .error⟩

variable [DecidableEq V]

/-- The checks of the file as a whole, before anything is changed: the cache, or `none` if there
is no file. -/
def openCache (C : Codec V) (ingredients : List PersistableIngredient) (maxBytes : Option Nat)
    (file : FileRead) : PicanteResult (Option CacheFile) := do
  ensureUniqueKinds [] ingredients
  match file with
  | .notFound => return none
  | .failed message => throw (.cache message)
  | .read bytes =>
    match maxBytes with
    | some max =>
      if bytes.length > max then
        throw (.cache ("cache file too large (" ++ toString bytes.length ++ " bytes > max "
          ++ toString max ++ ")"))
    | none => pure ()
    let cache ← C.decodeFile bytes
    if cache.formatVersion ≠ formatVersion then
      throw (.cache ("unsupported cache format version " ++ toString cache.formatVersion
        ++ "; expected " ++ toString formatVersion))
    return some cache

/-- `load_cache_inner`. -/
def Database.loadCacheInner (C : Codec V) (o : Order) (ingredients : List PersistableIngredient)
    (maxBytes : Option Nat) (file : FileRead) (db : Database V) :
    PicanteResult Bool × Database V :=
  match openCache C ingredients maxBytes file with
  | .error e => (.error e, db)
  | .ok none => (.ok false, db)
  | .ok (some cache) =>
    match (db.cleared ingredients).loadSections C ingredients cache.sections with
    | (.error e, db) => (.error e, db)
    | (.ok (), db) => (.ok true, db.restored o ingredients cache.currentRevision)

/-- What a load leads to: its result, the database, and whether the file is to be deleted. -/
structure LoadOutcome (V : Type) where
  result : PicanteResult Bool
  database : Database V
  deletes : Bool

/-- `load_cache_with_options`. -/
def Database.loadCacheWithOptions (C : Codec V) (o : Order)
    (ingredients : List PersistableIngredient) (options : CacheLoadOptions) (file : FileRead)
    (db : Database V) : LoadOutcome V :=
  match db.loadCacheInner C o ingredients options.maxBytes file with
  | (.ok b, db) => ⟨.ok b, db, false⟩
  | (.error e, db) =>
    match options.onCorrupt with
    | .error => ⟨.error e, db, false⟩
    | .ignore => ⟨.ok false, db, false⟩
    | .delete => ⟨.ok false, db, true⟩

/-- `load_cache`. -/
def Database.loadCache (C : Codec V) (o : Order) (ingredients : List PersistableIngredient)
    (file : FileRead) (db : Database V) : PicanteResult Bool × Database V :=
  let outcome := db.loadCacheWithOptions C o ingredients .default file
  (outcome.result, outcome.database)

end Picante

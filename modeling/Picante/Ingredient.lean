/-
# Inputs and interned values

The two kinds of base ingredients.  An input slot (`input.rs`) holds a value or the tombstone
left by `remove`, with the revision of its last change; a slot that was never written is
absent.  An interned ingredient (`interned.rs`) numbers values and never forgets one.

Values of all kinds share one type `V`: the source erases them, and its `facet_eq` is taken to
decide equality.
-/
import Picante.Key
import Mathlib.Logic.Function.Basic

namespace Picante

variable {V : Type}

/-! ## 1. Input slots -/

/-- A stored input slot: `value = none` is a removed slot. -/
structure InputEntry (V : Type) where
  value : Option V
  changedAt : Revision
  deriving DecidableEq, Repr

/-- The input slots of a view, all input ingredients together. -/
abbrev Inputs (V : Type) := DynKey → Option (InputEntry V)

namespace Inputs

/-- What `get` reads from a slot: nothing if it is absent or removed. -/
def get (inputs : Inputs V) (k : DynKey) : Option V := (inputs k).bind (·.value)

/-- What `touch` reports for a slot: the revision of its last change, 0 if it is absent. -/
def touch (inputs : Inputs V) (k : DynKey) : Revision :=
  match inputs k with
  | some e => e.changedAt
  | none => 0

/-- The check of `set` under the read lock: the slot already holds `value`. -/
def holds [DecidableEq V] (inputs : Inputs V) (k : DynKey) (value : V) : Bool :=
  inputs.get k == some value

/-- The check of `remove` under the read lock: there is nothing to remove, the slot being
absent or removed already. -/
def isGone (inputs : Inputs V) (k : DynKey) : Bool := (inputs.get k).isNone

/-- Stores an entry under the write lock. -/
def store (inputs : Inputs V) (k : DynKey) (value : Option V) (rev : Revision) : Inputs V :=
  Function.update inputs k (some { value, changedAt := rev })

@[simp] theorem get_store_self (inputs : Inputs V) (k : DynKey) (v : Option V) (rev : Revision) :
    (inputs.store k v rev).get k = v := by
  simp [get, store]

theorem get_store_ne (inputs : Inputs V) {k k' : DynKey} (h : k' ≠ k) (v : Option V)
    (rev : Revision) : (inputs.store k v rev).get k' = inputs.get k' := by
  simp [get, store, Function.update_of_ne h]

@[simp] theorem touch_store_self (inputs : Inputs V) (k : DynKey) (v : Option V)
    (rev : Revision) : (inputs.store k v rev).touch k = rev := by
  simp [touch, store]

theorem touch_store_ne (inputs : Inputs V) {k k' : DynKey} (h : k' ≠ k) (v : Option V)
    (rev : Revision) : (inputs.store k v rev).touch k' = inputs.touch k' := by
  simp [touch, store, Function.update_of_ne h]

end Inputs

/-! ## 2. Interned values -/

/-- An interning table: ids by value, values by id, and the next id.  The ids of the source have 32
bits (`I = UInt32`); where nothing depends on the counter coming to its end, they are naturals. -/
structure InternedIngredient (V : Type) (I : Type := Nat) where
  nextId : I
  byValue : V → Option I
  byId : I → Option V

namespace InternedIngredient

variable {I : Type}

/-- The empty table. -/
def empty [OfNat I 0] : InternedIngredient V I :=
  { nextId := 0, byValue := fun _ => none, byId := fun _ => none }

/-- Interns a value: its id if it has one, else the next id, and the counter goes on. -/
def intern [DecidableEq V] [DecidableEq I] [Add I] [OfNat I 1] (t : InternedIngredient V I)
    (value : V) : InternedIngredient V I × I :=
  match t.byValue value with
  | some id => (t, id)
  | none =>
    ({ nextId := t.nextId + 1
       byValue := Function.update t.byValue value (some t.nextId)
       byId := Function.update t.byId t.nextId (some value) }, t.nextId)

/-- Ids as records have them, and the increment that `load_records` makes. -/
class Saturates (I : Type) extends Max I, ToString I where
  ofRecord : Nat → I
  saturatingSucc : I → I

/-- Naturals never come to their end. -/
instance : Saturates Nat := { ofRecord := fun id => id, saturatingSucc := fun id => id + 1 }

/-- `u32::saturating_add(1)`. -/
instance : Saturates UInt32 where
  ofRecord := UInt32.ofNat
  saturatingSucc id := UInt32.ofNat (min (id.toNat + 1) (UInt32.size - 1))

@[simp] theorem ofRecord_nat (id : Nat) : (Saturates.ofRecord id : Nat) = id := rfl

@[simp] theorem saturatingSucc_nat (id : Nat) : Saturates.saturatingSucc id = id + 1 := rfl

/-- No id from `nextId` on is in use. -/
def Fresh (t : InternedIngredient V) : Prop := ∀ id, t.nextId ≤ id → t.byId id = none

theorem fresh_empty : (empty : InternedIngredient V).Fresh := fun _ _ => rfl

variable [DecidableEq V]

theorem Fresh.intern {t : InternedIngredient V} (h : t.Fresh) (value : V) :
    (t.intern value).1.Fresh := by
  unfold InternedIngredient.intern
  split
  · exact h
  · intro id hid
    have hne : id ≠ t.nextId := by
      have : t.nextId + 1 ≤ id := hid
      omega
    show Function.update t.byId t.nextId (some value) id = none
    rw [Function.update_of_ne hne]
    exact h id (by have : t.nextId + 1 ≤ id := hid; omega)

/-- **Interning keeps every value an id was given for.** -/
theorem byId_intern {t : InternedIngredient V} (h : t.Fresh) (value : V) {id : Nat} {v : V}
    (hv : t.byId id = some v) : (t.intern value).1.byId id = some v := by
  unfold InternedIngredient.intern
  split
  · exact hv
  · have hne : id ≠ t.nextId := by
      rintro rfl
      rw [h _ (Nat.le_refl _)] at hv
      cases hv
    show Function.update t.byId t.nextId (some value) id = some v
    rw [Function.update_of_ne hne, hv]

end InternedIngredient

end Picante

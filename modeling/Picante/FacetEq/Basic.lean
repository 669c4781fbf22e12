/-
# Structural equality of reflected values

`facet_eq.rs`: two values are compared through their reflection, shape by shape (`peekEq`).  What a
value is made of is a tree (`Value`), and its shape says what each node of it is (`ShapeDef`);
shapes refer to each other by their ids, so that a type may contain itself.

What facet answers is a parameter (`Facet`): whether two scalars are equal, the lookups of maps and
sets, whether `into_list` takes an array or a slice, and what the `partial_eq` of a smart pointer
says, if it has one.

`StructEq` is what is meant by structural equality, `LooseEq` what is left of it where a pointer's
`partial_eq` is believed, and `HasShape` says what the values of a shape are.
-/
import Picante.Ingredient
import Mathlib.Data.List.Basic
import Mathlib.Data.List.Nodup

namespace Picante

namespace FacetEq

/-! ## 1. Shapes and values -/

/-- Identity of a shape. -/
abbrev ShapeId := Nat

/-- A field of a struct or of a variant. -/
structure FieldDef where
  name : String
  isMetadata : Bool
  shape : ShapeId
  deriving DecidableEq, Repr

/-- A variant of an enum; a unit variant has no fields. -/
structure VariantDef where
  name : String
  fields : List FieldDef
  deriving DecidableEq, Repr

/-- The kinds of sequences. -/
inductive SeqKind where
  | list
  | array
  | slice
  deriving DecidableEq, Repr

/-- What the values of a shape are. -/
inductive ShapeDef where
  | scalar
  | struct (fields : List FieldDef)
  | enum (variants : List VariantDef)
  | option (inner : ShapeId)
  | result (ok err : ShapeId)
  | seq (kind : SeqKind) (elem : ShapeId)
  | map (key value : ShapeId)
  | set (elem : ShapeId)
  | pointer (pointee : ShapeId)
  deriving DecidableEq, Repr

/-- A value, over the scalars `σ`: tuples are structs, and a variant is given by its index. -/
inductive Value (σ : Type) where
  | scalar (s : σ)
  | struct (fields : List (Value σ))
  | enum (variant : Nat) (fields : List (Value σ))
  | optionNone
  | optionSome (v : Value σ)
  | resultOk (v : Value σ)
  | resultErr (v : Value σ)
  | seq (elems : List (Value σ))
  | map (entries : List (Value σ × Value σ))
  | set (elems : List (Value σ))
  | pointer (v : Value σ)

/-- What facet knows and answers. -/
structure Facet (σ : Type) where
  shapes : ShapeId → ShapeDef
  /-- the type implements `PartialEq`, and its shape says so -/
  providesPartialEq : ShapeId → Bool
  /-- `partial_eq` of two scalars -/
  scalarEq : ShapeId → σ → σ → Bool
  /-- the `partial_eq` of a smart pointer, on the pointees; none, if the shape has none -/
  pointerEq : ShapeId → Option (Value σ → Value σ → Bool)
  /-- `into_list` succeeds -/
  acceptsList : SeqKind → Bool
  /-- `get_peek` of a map -/
  getPeek : ShapeId → List (Value σ × Value σ) → Value σ → Option (Value σ)
  /-- `contains_peek` of a set -/
  containsPeek : ShapeId → List (Value σ) → Value σ → Bool

/-- A reflected value. -/
structure Peek (σ : Type) where
  shape : ShapeId
  value : Value σ

section parts

variable {σ : Type}

namespace Value

/-- The values a value is made of. -/
def parts : Value σ → List (Value σ)
  | .scalar _ => []
  | .struct fields => fields
  | .enum _ fields => fields
  | .optionNone => []
  | .optionSome v => [v]
  | .resultOk v => [v]
  | .resultErr v => [v]
  | .seq elems => elems
  | .map entries => entries.flatMap fun e => [e.1, e.2]
  | .set elems => elems
  | .pointer v => [v]

theorem key_mem_parts {es : List (Value σ × Value σ)} {e : Value σ × Value σ} (h : e ∈ es) :
    e.1 ∈ (Value.map es).parts :=
  List.mem_flatMap.mpr ⟨e, h, List.mem_cons_self ..⟩

theorem value_mem_parts {es : List (Value σ × Value σ)} {e : Value σ × Value σ} (h : e ∈ es) :
    e.2 ∈ (Value.map es).parts :=
  List.mem_flatMap.mpr ⟨e, h, List.mem_cons_of_mem _ (List.mem_cons_self ..)⟩

theorem sizeOf_entry {es : List (Value σ × Value σ)} {e : Value σ × Value σ} (h : e ∈ es) :
    sizeOf e.1 < sizeOf es ∧ sizeOf e.2 < sizeOf es := by
  obtain ⟨k, v⟩ := e
  have hlt := List.sizeOf_lt_of_mem h
  simp only [Prod.mk.sizeOf_spec] at hlt
  constructor <;> (simp only; omega)

/-- The parts are smaller. -/
theorem sizeOf_part {a v : Value σ} (h : a ∈ v.parts) : sizeOf a < sizeOf v := by
  cases v with
  | scalar | optionNone => cases h
  | struct fields | enum i fields | seq elems | set elems =>
    have hlt := List.sizeOf_lt_of_mem h
    simp only [parts] at hlt
    simp only [struct.sizeOf_spec, enum.sizeOf_spec, seq.sizeOf_spec, set.sizeOf_spec]
    omega
  | optionSome v | resultOk v | resultErr v | pointer v =>
    obtain rfl := List.mem_singleton.mp h
    simp
  | map entries =>
    obtain ⟨e, he, ha⟩ := List.mem_flatMap.mp h
    obtain ⟨hkey, hvalue⟩ := sizeOf_entry he
    simp only [List.mem_cons, List.not_mem_nil, or_false] at ha
    simp only [map.sizeOf_spec]
    rcases ha with rfl | rfl <;> omega

/-- **Induction over values.** -/
theorem parts_induction {P : Value σ → Prop} (h : ∀ v, (∀ a ∈ v.parts, P a) → P v)
    (v : Value σ) : P v := by
  induction hsize : sizeOf v using Nat.strongRecOn generalizing v with
  | ind n ih =>
    subst hsize
    exact h v fun a ha => ih _ (sizeOf_part ha) a rfl

end Value

end parts

namespace Facet

variable {σ : Type} (F : Facet σ)

/-! ## 2. The comparison -/

mutual

/-- `peek_eq` on two values of one shape. -/
def valueEq : ShapeId → Value σ → Value σ → Bool
  | sh, .optionSome a, .optionSome b =>
    match F.shapes sh with
    | .option inner => valueEq inner a b
    | _ => false
  | sh, .optionNone, .optionNone =>
    match F.shapes sh with
    | .option _ => true
    | _ => false
  | sh, .resultOk a, .resultOk b =>
    match F.shapes sh with
    | .result ok _ => valueEq ok a b
    | _ => false
  | sh, .resultErr a, .resultErr b =>
    match F.shapes sh with
    | .result _ err => valueEq err a b
    | _ => false
  | sh, .struct as, .struct bs =>
    match F.shapes sh with
    | .struct fields => fieldsEq true fields as bs
    | _ => false
  | sh, .enum i as, .enum j bs =>
    match F.shapes sh with
    | .enum variants =>
      match variants[i]?, variants[j]? with
      -- the fields of a variant are compared all, those of a tuple by index, others by name
      | some variantA, some variantB =>
        variantA.name == variantB.name && fieldsEq false variantA.fields as bs
      | _, _ => false
    | _ => false
  | sh, .seq as, .seq bs =>
    match F.shapes sh with
    | .seq kind elem => F.acceptsList kind && (as.length == bs.length && elemsEq elem as bs)
    | _ => false
  | sh, .map as, .map bs =>
    match F.shapes sh with
    | .map _ value => as.length == bs.length && entriesEq sh value as bs
    | _ => false
  | sh, .set as, .set bs =>
    match F.shapes sh with
    | .set _ => as.length == bs.length && as.all (F.containsPeek sh bs)
    | _ => false
  | sh, .scalar s, .scalar t =>
    match F.shapes sh with
    | .scalar => F.scalarEq sh s t
    | _ => false
  -- without a `partial_eq` of its own, what is not recognised is not equal
  | sh, .pointer a, .pointer b =>
    match F.shapes sh with
    | .pointer _ =>
      match F.pointerEq sh with
      | some eq => eq a b
      | none => false
    | _ => false
  | _, _, _ => false
termination_by structural _ a _ => a

/-- The fields of a struct or of a variant, one after another; where `skip` says so, those that are
metadata are left out. -/
def fieldsEq (skip : Bool) : List FieldDef → List (Value σ) → List (Value σ) → Bool
  | field :: fields, a :: as, b :: bs =>
    (skip && field.isMetadata || valueEq field.shape a b) && fieldsEq skip fields as bs
  | [], [], [] => true
  | _, _, _ => false
termination_by structural _ as _ => as

/-- The elements of two lists. -/
def elemsEq (elem : ShapeId) : List (Value σ) → List (Value σ) → Bool
  | a :: as, b :: bs => valueEq elem a b && elemsEq elem as bs
  | [], [] => true
  | _, _ => false
termination_by structural as _ => as

/-- Every entry of the first map is looked up in the second. -/
def entriesEq (sh value : ShapeId) :
    List (Value σ × Value σ) → List (Value σ × Value σ) → Bool
  | (key, a) :: as, bs =>
    (match F.getPeek sh bs key with
      | some b => valueEq value a b
      | none => false) && entriesEq sh value as bs
  | [], _ => true
termination_by structural as _ => as

end

/-- The smart pointer has a `partial_eq` of its own, which finds the pointees equal. -/
def Found (sh : ShapeId) (a b : Value σ) : Prop := ∃ eq, F.pointerEq sh = some eq ∧ eq a b = true

variable {F} in
/-- A pointer's own `partial_eq` decides. -/
theorem valueEq_pointer {sh pointee : ShapeId} {a b : Value σ}
    (hsh : F.shapes sh = .pointer pointee) :
    F.valueEq sh (.pointer a) (.pointer b) = true ↔ F.Found sh a b := by
  rw [valueEq, hsh, Found]
  cases F.pointerEq sh <;> simp

/-- `peek_eq`: values of different shapes are never equal. -/
def peekEq (a b : Peek σ) : Bool := a.shape == b.shape && F.valueEq a.shape a.value b.value

/-- `set` of an input ingredient whose values have the shape `sh`, at a revision: what the revision
is afterwards, and the slots. -/
def set (sh : ShapeId) (revision : Revision) (inputs : Inputs (Value σ)) (k : DynKey)
    (value : Value σ) : Revision × Inputs (Value σ) :=
  match inputs.get k with
  | some existing =>
    if F.peekEq ⟨sh, existing⟩ ⟨sh, value⟩ then (revision, inputs)
    else (revision + 1, inputs.store k (some value) (revision + 1))
  | none => (revision + 1, inputs.store k (some value) (revision + 1))

/-! ## 3. Structural equality -/

/-- Two values of a shape are equal, where pointees that are `found` to be so count as equal: the
same variant, equal fields that are not metadata, equal elements in order, the same entries, the
same members, equal pointees.  Keys and members are the same where nothing is found. -/
def EqUpTo : (ShapeId → Value σ → Value σ → Prop) → ShapeId → Value σ → Value σ → Prop
  | _, sh, .scalar s, .scalar t => F.scalarEq sh s t = true
  | found, sh, .struct as, .struct bs =>
    ∃ fields, F.shapes sh = .struct fields ∧
      ∀ (i : Nat) field a b, fields[i]? = some field → ∀ _ : as[i]? = some a, bs[i]? = some b →
        field.isMetadata = false → EqUpTo found field.shape a b
  | found, sh, .enum i as, .enum j bs =>
    i = j ∧ ∃ variants variant, F.shapes sh = .enum variants ∧ variants[i]? = some variant ∧
      ∀ (n : Nat) field a b, variant.fields[n]? = some field → ∀ _ : as[n]? = some a,
        bs[n]? = some b → field.isMetadata = false → EqUpTo found field.shape a b
  | _, _, .optionNone, .optionNone => True
  | found, sh, .optionSome a, .optionSome b =>
    ∃ inner, F.shapes sh = .option inner ∧ EqUpTo found inner a b
  | found, sh, .resultOk a, .resultOk b =>
    ∃ ok err, F.shapes sh = .result ok err ∧ EqUpTo found ok a b
  | found, sh, .resultErr a, .resultErr b =>
    ∃ ok err, F.shapes sh = .result ok err ∧ EqUpTo found err a b
  | found, sh, .seq as, .seq bs =>
    as.length = bs.length ∧ ∃ kind elem, F.shapes sh = .seq kind elem ∧
      ∀ (i : Nat) a b, ∀ _ : as[i]? = some a, bs[i]? = some b → EqUpTo found elem a b
  | found, sh, .map as, .map bs =>
    ∃ key value, F.shapes sh = .map key value ∧
      (∀ e, ∀ _ : e ∈ as, ∃ e' ∈ bs,
        EqUpTo (fun _ _ _ => False) key e.1 e'.1 ∧ EqUpTo found value e.2 e'.2) ∧
      (∀ e' ∈ bs, ∃ e, ∃ _ : e ∈ as,
        EqUpTo (fun _ _ _ => False) key e.1 e'.1 ∧ EqUpTo found value e.2 e'.2)
  | _, sh, .set as, .set bs =>
    ∃ elem, F.shapes sh = .set elem ∧
      (∀ a, ∀ _ : a ∈ as, ∃ b ∈ bs, EqUpTo (fun _ _ _ => False) elem a b) ∧
      (∀ b ∈ bs, ∃ a, ∃ _ : a ∈ as, EqUpTo (fun _ _ _ => False) elem a b)
  | found, sh, .pointer a, .pointer b =>
    ∃ pointee, F.shapes sh = .pointer pointee ∧ (found sh a b ∨ EqUpTo found pointee a b)
  | _, _, _, _ => False
termination_by _ _ a _ => sizeOf a
decreasing_by
  all_goals first
    | exact Value.sizeOf_part (List.mem_singleton_self _)
    | exact Value.sizeOf_part (List.mem_of_getElem? (by assumption))
    | exact Value.sizeOf_part ‹_ ∈ as›
    | exact Value.sizeOf_part (Value.key_mem_parts ‹_›)
    | exact Value.sizeOf_part (Value.value_mem_parts ‹_›)

/-- **Structural equality** of two values of a shape: pointees are equal if they are so themselves,
whatever is found. -/
def StructEq : ShapeId → Value σ → Value σ → Prop := F.EqUpTo fun _ _ _ => False

section pointer

variable {F} {sh pointee : ShapeId} {a b : Value σ} {found : ShapeId → Value σ → Value σ → Prop}

theorem eqUpTo_pointer (hsh : F.shapes sh = .pointer pointee) :
    F.EqUpTo found sh (.pointer a) (.pointer b) ↔ found sh a b ∨ F.EqUpTo found pointee a b := by
  simp [EqUpTo, hsh]

theorem structEq_pointer (hsh : F.shapes sh = .pointer pointee) :
    F.StructEq sh (.pointer a) (.pointer b) ↔ F.StructEq pointee a b := by
  rw [StructEq, eqUpTo_pointer hsh, false_or]

end pointer

/-- Equality that takes the word of every smart pointer's `partial_eq`. -/
def LooseEq : ShapeId → Value σ → Value σ → Prop := F.EqUpTo F.Found

/-- The values of a shape; the keys of a map and the members of a set are distinct. -/
def HasShape : ShapeId → Value σ → Prop
  | sh, .scalar _ => F.shapes sh = .scalar
  | sh, .struct as =>
    ∃ fields, F.shapes sh = .struct fields ∧ as.length = fields.length ∧
      ∀ (i : Nat) field a, fields[i]? = some field → ∀ _ : as[i]? = some a, HasShape field.shape a
  | sh, .enum i as =>
    ∃ variants variant, F.shapes sh = .enum variants ∧ variants[i]? = some variant ∧
      as.length = variant.fields.length ∧
      ∀ (n : Nat) field a, variant.fields[n]? = some field → ∀ _ : as[n]? = some a,
        HasShape field.shape a
  | sh, .optionNone => ∃ inner, F.shapes sh = .option inner
  | sh, .optionSome a => ∃ inner, F.shapes sh = .option inner ∧ HasShape inner a
  | sh, .resultOk a => ∃ ok err, F.shapes sh = .result ok err ∧ HasShape ok a
  | sh, .resultErr a => ∃ ok err, F.shapes sh = .result ok err ∧ HasShape err a
  | sh, .seq as => ∃ kind elem, F.shapes sh = .seq kind elem ∧ ∀ a, ∀ _ : a ∈ as, HasShape elem a
  | sh, .map as =>
    ∃ key value, F.shapes sh = .map key value ∧
      (∀ e, ∀ _ : e ∈ as, HasShape key e.1 ∧ HasShape value e.2) ∧
      as.Pairwise fun e e' => ¬ F.StructEq key e.1 e'.1
  | sh, .set as =>
    ∃ elem, F.shapes sh = .set elem ∧ (∀ a, ∀ _ : a ∈ as, HasShape elem a) ∧
      as.Pairwise fun a a' => ¬ F.StructEq elem a a'
  | sh, .pointer a => ∃ pointee, F.shapes sh = .pointer pointee ∧ HasShape pointee a
termination_by _ a => sizeOf a
decreasing_by
  all_goals first
    | exact Value.sizeOf_part (List.mem_singleton_self _)
    | exact Value.sizeOf_part (List.mem_of_getElem? (by assumption))
    | exact Value.sizeOf_part ‹_ ∈ as›
    | exact Value.sizeOf_part (Value.key_mem_parts ‹_›)
    | exact Value.sizeOf_part (Value.value_mem_parts ‹_›)

section hasShape

variable {F} {sh : ShapeId}

/-- The entries of a map. -/
theorem hasShape_map {key value : ShapeId} {as : List (Value σ × Value σ)}
    (hsh : F.shapes sh = .map key value) : F.HasShape sh (.map as) ↔
      (∀ e ∈ as, F.HasShape key e.1 ∧ F.HasShape value e.2) ∧
        as.Pairwise fun e e' => ¬ F.StructEq key e.1 e'.1 := by
  simp [HasShape, hsh]

/-- The members of a set. -/
theorem hasShape_set {elem : ShapeId} {as : List (Value σ)} (hsh : F.shapes sh = .set elem) :
    F.HasShape sh (.set as) ↔
      (∀ a ∈ as, F.HasShape elem a) ∧ as.Pairwise fun a a' => ¬ F.StructEq elem a a' := by
  simp [HasShape, hsh]

end hasShape

/-- **Where the comparison sees what there is**: every pointer it comes to has a `partial_eq`, which
finds the pointees equal, every sequence is taken by `into_list`, and the metadata of a variant,
which it compares too, is equal. -/
def Compared : ShapeId → Value σ → Value σ → Prop
  | sh, .struct as, .struct bs =>
    ∃ fields, F.shapes sh = .struct fields ∧
      ∀ (i : Nat) field a b, fields[i]? = some field → ∀ _ : as[i]? = some a, bs[i]? = some b →
        field.isMetadata = false → Compared field.shape a b
  | sh, .enum i as, .enum j bs =>
    i = j → ∃ variants variant, F.shapes sh = .enum variants ∧ variants[i]? = some variant ∧
      ∀ (n : Nat) field a b, variant.fields[n]? = some field → ∀ _ : as[n]? = some a,
        bs[n]? = some b →
          Compared field.shape a b ∧ (field.isMetadata = true → F.LooseEq field.shape a b)
  | sh, .optionSome a, .optionSome b => ∃ inner, F.shapes sh = .option inner ∧ Compared inner a b
  | sh, .resultOk a, .resultOk b => ∃ ok err, F.shapes sh = .result ok err ∧ Compared ok a b
  | sh, .resultErr a, .resultErr b => ∃ ok err, F.shapes sh = .result ok err ∧ Compared err a b
  | sh, .seq as, .seq bs =>
    ∃ kind elem, F.shapes sh = .seq kind elem ∧ F.acceptsList kind = true ∧
      ∀ (i : Nat) a b, ∀ _ : as[i]? = some a, bs[i]? = some b → Compared elem a b
  | sh, .map as, .map bs =>
    ∃ key value, F.shapes sh = .map key value ∧
      ∀ e, ∀ _ : e ∈ as, ∀ e' ∈ bs, F.StructEq key e.1 e'.1 → Compared value e.2 e'.2
  | sh, .pointer a, .pointer b => F.Found sh a b
  | _, _, _ => True
termination_by _ a _ => sizeOf a
decreasing_by
  all_goals first
    | exact Value.sizeOf_part (List.mem_singleton_self _)
    | exact Value.sizeOf_part (List.mem_of_getElem? (by assumption))
    | exact Value.sizeOf_part ‹_ ∈ as›
    | exact Value.sizeOf_part (Value.key_mem_parts ‹_›)
    | exact Value.sizeOf_part (Value.value_mem_parts ‹_›)

/-- What is relied on of facet. -/
structure Lawful : Prop where
  scalar (sh : ShapeId) : Equivalence fun s t => F.scalarEq sh s t = true
  /-- the variants of an enum have names of their own -/
  variants {sh : ShapeId} {variants : List VariantDef} :
    F.shapes sh = .enum variants → (variants.map (·.name)).Nodup
  list : F.acceptsList .list = true
  /-- a key that is found is equal to the one it is found for -/
  getPeek_some {sh key value : ShapeId} {es : List (Value σ × Value σ)} {k b : Value σ} :
    F.shapes sh = .map key value → F.HasShape sh (.map es) → F.HasShape key k →
      F.getPeek sh es k = some b → ∃ e ∈ es, F.StructEq key k e.1 ∧ e.2 = b
  /-- a key that is not found is equal to none -/
  getPeek_none {sh key value : ShapeId} {es : List (Value σ × Value σ)} {k : Value σ} :
    F.shapes sh = .map key value → F.HasShape sh (.map es) → F.HasShape key k →
      F.getPeek sh es k = none → ∀ e ∈ es, ¬ F.StructEq key k e.1
  containsPeek {sh elem : ShapeId} {as : List (Value σ)} {a : Value σ} :
    F.shapes sh = .set elem → F.HasShape sh (.set as) → F.HasShape elem a →
      (F.containsPeek sh as a = true ↔ ∃ b ∈ as, F.StructEq elem a b)
  /-- a smart pointer has a `partial_eq` only if its pointee provides one; what it answers is left
  open -/
  pointer_partialEq {sh pointee : ShapeId} : F.shapes sh = .pointer pointee →
    (F.pointerEq sh).isSome = true → F.providesPartialEq pointee = true

/-- What is asked of every `PartialEq`, here of that of the smart pointers: it is symmetric and
transitive. -/
structure PartialEqs : Prop where
  symm {sh pointee : ShapeId} {a b : Value σ} : F.shapes sh = .pointer pointee →
    F.HasShape pointee a → F.HasShape pointee b → F.Found sh a b → F.Found sh b a
  trans {sh pointee : ShapeId} {a b c : Value σ} : F.shapes sh = .pointer pointee →
    F.HasShape pointee a → F.HasShape pointee b → F.HasShape pointee c →
      F.Found sh a b → F.Found sh b c → F.Found sh a c

end Facet

end FacetEq

end Picante

/-
# Structural equality is an equivalence

Two values of one shape are made alike, or differ at the root: in their variant, or one is there
and the other is not (`Alike`).  Every fact about a pair of values of one shape is proved along
these cases, by induction on the first of them.

* `structEq_refl`, `structEq_symm`, `structEq_trans` -- on the values of a shape.
* `StructEq.upTo` -- equal values are equal whatever is found.
-/
import Picante.FacetEq.Basic
import Picante.Matching.Basic

namespace Picante

namespace FacetEq

variable {σ : Type} {F : Facet σ} {sh : ShapeId}

namespace Facet

/-! ## 1. The pairs of one shape -/

/-- The elements of two lists of values, field by field, are values of the fields' shapes. -/
def FieldsShaped (F : Facet σ) (fields : List FieldDef) (as bs : List (Value σ)) : Prop :=
  as.length = fields.length ∧ bs.length = fields.length ∧
    (∀ (i : Nat) field a, fields[i]? = some field → as[i]? = some a → F.HasShape field.shape a) ∧
    (∀ (i : Nat) field b, fields[i]? = some field → bs[i]? = some b → F.HasShape field.shape b)

theorem FieldsShaped.symm {fields : List FieldDef} {as bs : List (Value σ)}
    (h : F.FieldsShaped fields as bs) : F.FieldsShaped fields bs as :=
  ⟨h.2.1, h.1, h.2.2.2, h.2.2.1⟩

theorem FieldsShaped.trans {fields : List FieldDef} {as bs cs : List (Value σ)}
    (h : F.FieldsShaped fields as bs) (h' : F.FieldsShaped fields bs cs) :
    F.FieldsShaped fields as cs :=
  ⟨h.1, h'.2.1, h.2.2.1, h'.2.2.2⟩

/-- Two values of one shape: made alike, or different at the root. -/
inductive Alike (F : Facet σ) (sh : ShapeId) : Value σ → Value σ → Prop where
  | scalar {s t : σ} (hsh : F.shapes sh = .scalar) : Alike F sh (.scalar s) (.scalar t)
  | struct {fields : List FieldDef} {as bs : List (Value σ)} (hsh : F.shapes sh = .struct fields)
      (hshaped : F.FieldsShaped fields as bs) : Alike F sh (.struct as) (.struct bs)
  | enum {variants : List VariantDef} {variant : VariantDef} {i : Nat} {as bs : List (Value σ)}
      (hsh : F.shapes sh = .enum variants) (hvariant : variants[i]? = some variant)
      (hshaped : F.FieldsShaped variant.fields as bs) : Alike F sh (.enum i as) (.enum i bs)
  | optionNone {inner : ShapeId} (hsh : F.shapes sh = .option inner) :
      Alike F sh .optionNone .optionNone
  | optionSome {inner : ShapeId} {a b : Value σ} (hsh : F.shapes sh = .option inner)
      (ha : F.HasShape inner a) (hb : F.HasShape inner b) :
      Alike F sh (.optionSome a) (.optionSome b)
  | resultOk {ok err : ShapeId} {a b : Value σ} (hsh : F.shapes sh = .result ok err)
      (ha : F.HasShape ok a) (hb : F.HasShape ok b) : Alike F sh (.resultOk a) (.resultOk b)
  | resultErr {ok err : ShapeId} {a b : Value σ} (hsh : F.shapes sh = .result ok err)
      (ha : F.HasShape err a) (hb : F.HasShape err b) : Alike F sh (.resultErr a) (.resultErr b)
  | seq {kind : SeqKind} {elem : ShapeId} {as bs : List (Value σ)}
      (hsh : F.shapes sh = .seq kind elem) (has : ∀ a ∈ as, F.HasShape elem a)
      (hbs : ∀ b ∈ bs, F.HasShape elem b) : Alike F sh (.seq as) (.seq bs)
  | map {key value : ShapeId} {as bs : List (Value σ × Value σ)}
      (hsh : F.shapes sh = .map key value)
      (ha : F.HasShape sh (.map as)) (hb : F.HasShape sh (.map bs)) : Alike F sh (.map as) (.map bs)
  | set {elem : ShapeId} {as bs : List (Value σ)} (hsh : F.shapes sh = .set elem)
      (ha : F.HasShape sh (.set as)) (hb : F.HasShape sh (.set bs)) : Alike F sh (.set as) (.set bs)
  | pointer {pointee : ShapeId} {a b : Value σ} (hsh : F.shapes sh = .pointer pointee)
      (ha : F.HasShape pointee a) (hb : F.HasShape pointee b) : Alike F sh (.pointer a) (.pointer b)
  | differ {a b : Value σ} (hne : ∀ found, ¬ F.EqUpTo found sh a b)
      (hvalue : F.valueEq sh a b = false) : Alike F sh a b

/-- Variants of one name are one variant. -/
theorem Lawful.variant_eq (hF : F.Lawful) {variants : List VariantDef} {i j : Nat}
    {variant variant' : VariantDef} (hsh : F.shapes sh = .enum variants)
    (hi : variants[i]? = some variant) (hj : variants[j]? = some variant')
    (hname : variant.name = variant'.name) : i = j := by
  have hnodup := hF.variants hsh
  have hlt : i < (variants.map (·.name)).length := by
    rw [List.length_map]
    exact (List.getElem?_eq_some_iff.mp hi).1
  refine (List.getElem?_inj hlt hnodup).mp ?_
  rw [List.getElem?_map, List.getElem?_map, hi, hj, Option.map_some, Option.map_some, hname]

theorem alike (hF : F.Lawful) {a b : Value σ} (ha : F.HasShape sh a) (hb : F.HasShape sh b) :
    F.Alike sh a b := by
  cases hsh : F.shapes sh with
  | scalar =>
    cases a <;> simp [HasShape, hsh] at ha
    cases b <;> simp [HasShape, hsh] at hb
    exact .scalar hsh
  | struct fields =>
    cases a <;> simp [HasShape, hsh] at ha
    cases b <;> simp [HasShape, hsh] at hb
    exact .struct hsh ⟨ha.1, hb.1, ha.2, hb.2⟩
  | enum variants =>
    cases a <;> simp [HasShape, hsh] at ha
    cases b <;> simp [HasShape, hsh] at hb
    obtain ⟨variant, hvariant, ha⟩ := ha
    obtain ⟨variant', hvariant', hb⟩ := hb
    rename_i i as j bs
    rcases eq_or_ne i j with rfl | hne
    · obtain rfl : variant = variant' := Option.some.inj (hvariant.symm.trans hvariant')
      exact .enum hsh hvariant ⟨ha.1, hb.1, ha.2, hb.2⟩
    · refine .differ (fun found h => ?_) ?_
      · simp only [EqUpTo] at h
        exact hne h.1
      · simp only [valueEq, hsh, hvariant, hvariant', Bool.and_eq_false_iff, beq_eq_false_iff_ne]
        exact Or.inl fun hname => hne (hF.variant_eq hsh hvariant hvariant' hname)
  | option inner =>
    cases a <;> simp [HasShape, hsh] at ha <;> cases b <;> simp [HasShape, hsh] at hb
    · exact .optionNone hsh
    · exact .differ (by simp [EqUpTo]) (by simp [valueEq])
    · exact .differ (by simp [EqUpTo]) (by simp [valueEq])
    · exact .optionSome hsh ha hb
  | result ok err =>
    cases a <;> simp [HasShape, hsh] at ha <;> cases b <;> simp [HasShape, hsh] at hb
    · exact .resultOk hsh ha hb
    · exact .differ (by simp [EqUpTo]) (by simp [valueEq])
    · exact .differ (by simp [EqUpTo]) (by simp [valueEq])
    · exact .resultErr hsh ha hb
  | seq kind elem =>
    cases a <;> simp [HasShape, hsh] at ha
    cases b <;> simp [HasShape, hsh] at hb
    exact .seq hsh ha hb
  | map key value =>
    cases a with
    | map as =>
      cases b with
      | map bs => exact .map hsh ha hb
      | _ => simp [HasShape, hsh] at hb
    | _ => simp [HasShape, hsh] at ha
  | set elem =>
    cases a with
    | set as =>
      cases b with
      | set bs => exact .set hsh ha hb
      | _ => simp [HasShape, hsh] at hb
    | _ => simp [HasShape, hsh] at ha
  | pointer pointee =>
    cases a <;> simp [HasShape, hsh] at ha
    cases b <;> simp [HasShape, hsh] at hb
    exact .pointer hsh ha hb

/-! ## 2. What the pairs are compared by -/

/-- The elements of two lists are related at every field. -/
def Fieldwise (R : FieldDef → Value σ → Value σ → Prop) (fields : List FieldDef)
    (as bs : List (Value σ)) : Prop :=
  ∀ (i : Nat) field a b, fields[i]? = some field → as[i]? = some a → bs[i]? = some b → R field a b

variable {R R' R'' : FieldDef → Value σ → Value σ → Prop} {fields : List FieldDef}
  {as bs cs : List (Value σ)}

theorem FieldsShaped.fieldwise_self (h : F.FieldsShaped fields as bs)
    (hR : ∀ field, ∀ a ∈ as, F.HasShape field.shape a → R field a a) :
    Fieldwise R fields as as := by
  intro i field a b hfield ha hb
  obtain rfl : a = b := Option.some.inj (ha.symm.trans hb)
  exact hR field a (List.mem_of_getElem? ha) (h.2.2.1 i field a hfield ha)

theorem FieldsShaped.fieldwise_imp (h : F.FieldsShaped fields as bs)
    (hR : ∀ field, ∀ a ∈ as, ∀ b, F.HasShape field.shape a → F.HasShape field.shape b →
      R field a b → R' field a b) (hab : Fieldwise R fields as bs) : Fieldwise R' fields as bs := by
  intro i field a b hfield ha hb
  exact hR field a (List.mem_of_getElem? ha) b (h.2.2.1 i field a hfield ha)
    (h.2.2.2 i field b hfield hb) (hab i field a b hfield ha hb)

theorem FieldsShaped.fieldwise_symm (h : F.FieldsShaped fields as bs)
    (hR : ∀ field, ∀ a ∈ as, ∀ b, F.HasShape field.shape a → F.HasShape field.shape b →
      R field a b → R' field b a) (hab : Fieldwise R fields as bs) : Fieldwise R' fields bs as := by
  intro i field b a hfield hb ha
  exact hR field a (List.mem_of_getElem? ha) b (h.2.2.1 i field a hfield ha)
    (h.2.2.2 i field b hfield hb) (hab i field a b hfield ha hb)

theorem FieldsShaped.fieldwise_trans (h : F.FieldsShaped fields as bs)
    (h' : F.FieldsShaped fields bs cs)
    (hR : ∀ field, ∀ a ∈ as, ∀ b c, F.HasShape field.shape a → F.HasShape field.shape b →
      F.HasShape field.shape c → R field a b → R' field b c → R'' field a c)
    (hab : Fieldwise R fields as bs) (hbc : Fieldwise R' fields bs cs) :
    Fieldwise R'' fields as cs := by
  intro i field a c hfield ha hc
  have hlt : i < bs.length := by
    rw [h.2.1]
    exact (List.getElem?_eq_some_iff.mp hfield).1
  have hb := List.getElem?_eq_getElem hlt
  exact hR field a (List.mem_of_getElem? ha) _ c (h.2.2.1 i field a hfield ha)
    (h.2.2.2 i field _ hfield hb) (h'.2.2.2 i field c hfield hc) (hab i field a _ hfield ha hb)
    (hbc i field _ c hfield hb hc)

variable {found : ShapeId → Value σ → Value σ → Prop}

theorem eqUpTo_struct (hsh : F.shapes sh = .struct fields) :
    F.EqUpTo found sh (.struct as) (.struct bs) ↔
      Fieldwise (fun field a b => field.isMetadata = false → F.EqUpTo found field.shape a b)
        fields as bs := by
  rw [EqUpTo.eq_def]
  simp [hsh, Fieldwise]

theorem eqUpTo_enum {variants : List VariantDef} {variant : VariantDef} {n : Nat}
    (hsh : F.shapes sh = .enum variants) (hvariant : variants[n]? = some variant) :
    F.EqUpTo found sh (.enum n as) (.enum n bs) ↔
      Fieldwise (fun field a b => field.isMetadata = false → F.EqUpTo found field.shape a b)
        variant.fields as bs := by
  rw [EqUpTo.eq_def]
  simp [hsh, hvariant, Fieldwise]

theorem eqUpTo_optionSome {inner : ShapeId} {a b : Value σ} (hsh : F.shapes sh = .option inner) :
    F.EqUpTo found sh (.optionSome a) (.optionSome b) ↔ F.EqUpTo found inner a b := by
  rw [EqUpTo.eq_def]
  simp [hsh]

theorem eqUpTo_resultOk {ok err : ShapeId} {a b : Value σ} (hsh : F.shapes sh = .result ok err) :
    F.EqUpTo found sh (.resultOk a) (.resultOk b) ↔ F.EqUpTo found ok a b := by
  rw [EqUpTo.eq_def]
  simp [hsh]

theorem eqUpTo_resultErr {ok err : ShapeId} {a b : Value σ} (hsh : F.shapes sh = .result ok err) :
    F.EqUpTo found sh (.resultErr a) (.resultErr b) ↔ F.EqUpTo found err a b := by
  rw [EqUpTo.eq_def]
  simp [hsh]

theorem eqUpTo_seq {kind : SeqKind} {elem : ShapeId} (hsh : F.shapes sh = .seq kind elem) :
    F.EqUpTo found sh (.seq as) (.seq bs) ↔ as.length = bs.length ∧
      ∀ (i : Nat) a b, as[i]? = some a → bs[i]? = some b → F.EqUpTo found elem a b := by
  rw [EqUpTo.eq_def]
  simp [hsh]

theorem eqUpTo_map {key value : ShapeId} {as bs : List (Value σ × Value σ)}
    (hsh : F.shapes sh = .map key value) : F.EqUpTo found sh (.map as) (.map bs) ↔
      (∀ e ∈ as, ∃ e' ∈ bs, F.StructEq key e.1 e'.1 ∧ F.EqUpTo found value e.2 e'.2) ∧
        (∀ e' ∈ bs, ∃ e ∈ as, F.StructEq key e.1 e'.1 ∧ F.EqUpTo found value e.2 e'.2) := by
  rw [EqUpTo.eq_def]
  simp only [StructEq, hsh, ShapeDef.map.injEq, exists_prop]
  constructor
  · rintro ⟨key', value', ⟨rfl, rfl⟩, h⟩
    exact h
  · intro h
    exact ⟨key, value, ⟨rfl, rfl⟩, h⟩

theorem eqUpTo_set {elem : ShapeId} (hsh : F.shapes sh = .set elem) :
    F.EqUpTo found sh (.set as) (.set bs) ↔
      (∀ a ∈ as, ∃ b ∈ bs, F.StructEq elem a b) ∧ (∀ b ∈ bs, ∃ a ∈ as, F.StructEq elem a b) := by
  rw [EqUpTo.eq_def]
  simp [StructEq, hsh]

theorem compared_struct (hsh : F.shapes sh = .struct fields) :
    F.Compared sh (.struct as) (.struct bs) ↔
      Fieldwise (fun field a b => field.isMetadata = false → F.Compared field.shape a b)
        fields as bs := by
  rw [Compared.eq_def]
  simp [hsh, Fieldwise]

theorem compared_enum {variants : List VariantDef} {variant : VariantDef} {n : Nat}
    (hsh : F.shapes sh = .enum variants) (hvariant : variants[n]? = some variant) :
    F.Compared sh (.enum n as) (.enum n bs) ↔
      Fieldwise (fun field a b =>
        F.Compared field.shape a b ∧ (field.isMetadata = true → F.LooseEq field.shape a b))
        variant.fields as bs := by
  rw [Compared.eq_def]
  simp [hsh, hvariant, Fieldwise]

theorem compared_optionSome {inner : ShapeId} {a b : Value σ} (hsh : F.shapes sh = .option inner) :
    F.Compared sh (.optionSome a) (.optionSome b) ↔ F.Compared inner a b := by
  rw [Compared.eq_def]
  simp [hsh]

theorem compared_resultOk {ok err : ShapeId} {a b : Value σ} (hsh : F.shapes sh = .result ok err) :
    F.Compared sh (.resultOk a) (.resultOk b) ↔ F.Compared ok a b := by
  rw [Compared.eq_def]
  simp [hsh]

theorem compared_resultErr {ok err : ShapeId} {a b : Value σ} (hsh : F.shapes sh = .result ok err) :
    F.Compared sh (.resultErr a) (.resultErr b) ↔ F.Compared err a b := by
  rw [Compared.eq_def]
  simp [hsh]

theorem compared_seq {kind : SeqKind} {elem : ShapeId} (hsh : F.shapes sh = .seq kind elem) :
    F.Compared sh (.seq as) (.seq bs) ↔ F.acceptsList kind = true ∧
      ∀ (i : Nat) a b, as[i]? = some a → bs[i]? = some b → F.Compared elem a b := by
  rw [Compared.eq_def]
  simp [hsh]

theorem compared_map {key value : ShapeId} {as bs : List (Value σ × Value σ)}
    (hsh : F.shapes sh = .map key value) : F.Compared sh (.map as) (.map bs) ↔
      ∀ e ∈ as, ∀ e' ∈ bs, F.StructEq key e.1 e'.1 → F.Compared value e.2 e'.2 := by
  rw [Compared.eq_def]
  simp [hsh]

/-! ## 3. Equivalence -/

/-- **A value is equal to itself.** -/
theorem structEq_refl (hF : F.Lawful) {a : Value σ} (ha : F.HasShape sh a) : F.StructEq sh a a := by
  induction a using Value.parts_induction generalizing sh with
  | h a ih =>
    cases a with
    | scalar s =>
      simp only [StructEq, EqUpTo]
      exact (hF.scalar sh).refl s
    | struct as =>
      obtain ⟨fields, hsh, hlength, hshape⟩ := by simpa only [HasShape] using ha
      refine (eqUpTo_struct hsh).mpr ?_
      exact FieldsShaped.fieldwise_self ⟨hlength, hlength, hshape, hshape⟩
        fun field a ha hshape _ => ih a ha hshape
    | enum i as =>
      obtain ⟨variants, variant, hsh, hvariant, hlength, hshape⟩ := by
        simpa only [HasShape] using ha
      refine (eqUpTo_enum hsh hvariant).mpr ?_
      exact FieldsShaped.fieldwise_self ⟨hlength, hlength, hshape, hshape⟩
        fun field a ha hshape _ => ih a ha hshape
    | optionNone => simp only [StructEq, EqUpTo]
    | optionSome a =>
      obtain ⟨inner, hsh, ha⟩ := by simpa only [HasShape] using ha
      exact (eqUpTo_optionSome hsh).mpr (ih a (List.mem_singleton_self a) ha)
    | resultOk a =>
      obtain ⟨ok, err, hsh, ha⟩ := by simpa only [HasShape] using ha
      exact (eqUpTo_resultOk hsh).mpr (ih a (List.mem_singleton_self a) ha)
    | resultErr a =>
      obtain ⟨ok, err, hsh, ha⟩ := by simpa only [HasShape] using ha
      exact (eqUpTo_resultErr hsh).mpr (ih a (List.mem_singleton_self a) ha)
    | seq as =>
      obtain ⟨kind, elem, hsh, hshape⟩ := by simpa only [HasShape] using ha
      refine (eqUpTo_seq hsh).mpr ⟨rfl, fun i a b ha hb => ?_⟩
      obtain rfl : a = b := Option.some.inj (ha.symm.trans hb)
      have hmem := List.mem_of_getElem? ha
      exact ih a hmem (hshape a hmem)
    | map as =>
      obtain ⟨key, value, hsh, hshape, -⟩ := by simpa only [HasShape] using ha
      have hself : ∀ e ∈ as, F.StructEq key e.1 e.1 ∧ F.StructEq value e.2 e.2 := by
        intro e he
        exact ⟨ih _ (Value.key_mem_parts he) (hshape e he).1,
          ih _ (Value.value_mem_parts he) (hshape e he).2⟩
      exact (eqUpTo_map hsh).mpr
        ⟨fun e he => ⟨e, he, hself e he⟩, fun e he => ⟨e, he, hself e he⟩⟩
    | set as =>
      obtain ⟨elem, hsh, hshape, -⟩ := by simpa only [HasShape] using ha
      exact (eqUpTo_set hsh).mpr ⟨fun a ha => ⟨a, ha, ih a ha (hshape a ha)⟩,
        fun a ha => ⟨a, ha, ih a ha (hshape a ha)⟩⟩
    | pointer a =>
      obtain ⟨pointee, hsh, ha⟩ := by simpa only [HasShape] using ha
      exact (structEq_pointer hsh).mpr (ih a (List.mem_singleton_self a) ha)

/-- **Equality goes both ways.** -/
theorem structEq_symm (hF : F.Lawful) {a b : Value σ} (ha : F.HasShape sh a)
    (hb : F.HasShape sh b) (h : F.StructEq sh a b) : F.StructEq sh b a := by
  induction a using Value.parts_induction generalizing sh b with
  | h a ih =>
    cases F.alike hF ha hb with
    | scalar hsh =>
      simp only [StructEq, EqUpTo] at h ⊢
      exact (hF.scalar sh).symm h
    | struct hsh hshaped =>
      refine (eqUpTo_struct hsh).mpr ?_
      exact hshaped.fieldwise_symm
        (fun field a hmem b ha hb h hmeta => ih a hmem ha hb (h hmeta)) ((eqUpTo_struct hsh).mp h)
    | enum hsh hvariant hshaped =>
      refine (eqUpTo_enum hsh hvariant).mpr ?_
      exact hshaped.fieldwise_symm
        (fun field a hmem b ha hb h hmeta => ih a hmem ha hb (h hmeta))
        ((eqUpTo_enum hsh hvariant).mp h)
    | optionNone => simp only [StructEq, EqUpTo]
    | optionSome hsh ha' hb' =>
      refine (eqUpTo_optionSome hsh).mpr ?_
      exact ih _ (List.mem_singleton_self _) ha' hb' ((eqUpTo_optionSome hsh).mp h)
    | resultOk hsh ha' hb' =>
      refine (eqUpTo_resultOk hsh).mpr ?_
      exact ih _ (List.mem_singleton_self _) ha' hb' ((eqUpTo_resultOk hsh).mp h)
    | resultErr hsh ha' hb' =>
      refine (eqUpTo_resultErr hsh).mpr ?_
      exact ih _ (List.mem_singleton_self _) ha' hb' ((eqUpTo_resultErr hsh).mp h)
    | seq hsh has hbs =>
      obtain ⟨hlength, h⟩ := (eqUpTo_seq hsh).mp h
      refine (eqUpTo_seq hsh).mpr ⟨hlength.symm, fun i b a hb ha => ?_⟩
      have hmem := List.mem_of_getElem? ha
      exact ih a hmem (has a hmem) (hbs b (List.mem_of_getElem? hb)) (h i a b ha hb)
    | @map key value as bs hsh ha hb =>
      obtain ⟨hleft, hright⟩ := (eqUpTo_map hsh).mp h
      have hback : ∀ e ∈ as, ∀ e' ∈ bs, F.StructEq key e.1 e'.1 ∧ F.StructEq value e.2 e'.2 →
          F.StructEq key e'.1 e.1 ∧ F.StructEq value e'.2 e.2 := by
        intro e he e' he' h
        have hshape := ((hasShape_map hsh).mp ha).1 e he
        have hshape' := ((hasShape_map hsh).mp hb).1 e' he'
        exact ⟨ih _ (Value.key_mem_parts he) hshape.1 hshape'.1 h.1,
          ih _ (Value.value_mem_parts he) hshape.2 hshape'.2 h.2⟩
      refine (eqUpTo_map hsh).mpr ⟨fun e' he' => ?_, fun e he => ?_⟩
      · obtain ⟨e, he, h⟩ := hright e' he'
        exact ⟨e, he, hback e he e' he' h⟩
      · obtain ⟨e', he', h⟩ := hleft e he
        exact ⟨e', he', hback e he e' he' h⟩
    | @set elem as bs hsh ha hb =>
      obtain ⟨hleft, hright⟩ := (eqUpTo_set hsh).mp h
      have hback : ∀ a ∈ as, ∀ b ∈ bs, F.StructEq elem a b → F.StructEq elem b a := by
        intro a hmem b hmem' h
        exact ih a hmem (((hasShape_set hsh).mp ha).1 a hmem)
          (((hasShape_set hsh).mp hb).1 b hmem') h
      refine (eqUpTo_set hsh).mpr ⟨fun b hb => ?_, fun a ha => ?_⟩
      · obtain ⟨a, ha, h⟩ := hright b hb
        exact ⟨a, ha, hback a ha b hb h⟩
      · obtain ⟨b, hb, h⟩ := hleft a ha
        exact ⟨b, hb, hback a ha b hb h⟩
    | pointer hsh ha' hb' =>
      refine (structEq_pointer hsh).mpr ?_
      exact ih _ (List.mem_singleton_self _) ha' hb' ((structEq_pointer hsh).mp h)
    | differ hne => exact absurd h (hne _)

/-- **And on.** -/
theorem structEq_trans (hF : F.Lawful) {a b c : Value σ} (ha : F.HasShape sh a)
    (hb : F.HasShape sh b) (hc : F.HasShape sh c) (hab : F.StructEq sh a b)
    (hbc : F.StructEq sh b c) : F.StructEq sh a c := by
  induction a using Value.parts_induction generalizing sh b c with
  | h a ih =>
    cases F.alike hF ha hb with
    | scalar hsh =>
      cases F.alike hF hb hc with
      | scalar hsh =>
        simp only [StructEq, EqUpTo] at hab hbc ⊢
        exact (hF.scalar sh).trans hab hbc
      | differ hne => exact absurd hbc (hne _)
    | @struct fields as bs hsh hshaped =>
      cases F.alike hF hb hc with
      | struct hsh' hshaped' =>
        obtain rfl := ShapeDef.struct.inj (hsh.symm.trans hsh')
        refine (eqUpTo_struct hsh).mpr ?_
        exact hshaped.fieldwise_trans hshaped'
          (fun field a hmem b c ha hb hc hab hbc hmeta =>
            ih a hmem ha hb hc (hab hmeta) (hbc hmeta))
          ((eqUpTo_struct hsh).mp hab) ((eqUpTo_struct hsh).mp hbc)
      | differ hne => exact absurd hbc (hne _)
    | @enum variants variant n as bs hsh hvariant hshaped =>
      cases F.alike hF hb hc with
      | enum hsh' hvariant' hshaped' =>
        obtain rfl := ShapeDef.enum.inj (hsh.symm.trans hsh')
        obtain rfl := Option.some.inj (hvariant.symm.trans hvariant')
        refine (eqUpTo_enum hsh hvariant).mpr ?_
        exact hshaped.fieldwise_trans hshaped'
          (fun field a hmem b c ha hb hc hab hbc hmeta =>
            ih a hmem ha hb hc (hab hmeta) (hbc hmeta))
          ((eqUpTo_enum hsh hvariant).mp hab) ((eqUpTo_enum hsh hvariant).mp hbc)
      | differ hne => exact absurd hbc (hne _)
    | optionNone hsh =>
      cases F.alike hF hb hc with
      | optionNone => simp only [StructEq, EqUpTo]
      | differ hne => exact absurd hbc (hne _)
    | optionSome hsh ha' hb' =>
      cases F.alike hF hb hc with
      | optionSome hsh' _ hc' =>
        obtain rfl := ShapeDef.option.inj (hsh.symm.trans hsh')
        refine (eqUpTo_optionSome hsh).mpr ?_
        exact ih _ (List.mem_singleton_self _) ha' hb' hc' ((eqUpTo_optionSome hsh).mp hab)
          ((eqUpTo_optionSome hsh).mp hbc)
      | differ hne => exact absurd hbc (hne _)
    | resultOk hsh ha' hb' =>
      cases F.alike hF hb hc with
      | resultOk hsh' _ hc' =>
        obtain ⟨rfl, rfl⟩ := ShapeDef.result.inj (hsh.symm.trans hsh')
        refine (eqUpTo_resultOk hsh).mpr ?_
        exact ih _ (List.mem_singleton_self _) ha' hb' hc' ((eqUpTo_resultOk hsh).mp hab)
          ((eqUpTo_resultOk hsh).mp hbc)
      | differ hne => exact absurd hbc (hne _)
    | resultErr hsh ha' hb' =>
      cases F.alike hF hb hc with
      | resultErr hsh' _ hc' =>
        obtain ⟨rfl, rfl⟩ := ShapeDef.result.inj (hsh.symm.trans hsh')
        refine (eqUpTo_resultErr hsh).mpr ?_
        exact ih _ (List.mem_singleton_self _) ha' hb' hc' ((eqUpTo_resultErr hsh).mp hab)
          ((eqUpTo_resultErr hsh).mp hbc)
      | differ hne => exact absurd hbc (hne _)
    | @seq kind elem as bs hsh has hbs =>
      cases F.alike hF hb hc with
      | @seq kind' elem' _ cs hsh' hbs' hcs =>
        obtain ⟨rfl, rfl⟩ := ShapeDef.seq.inj (hsh.symm.trans hsh')
        obtain ⟨hlength, hab⟩ := (eqUpTo_seq hsh).mp hab
        obtain ⟨hlength', hbc⟩ := (eqUpTo_seq hsh).mp hbc
        refine (eqUpTo_seq hsh).mpr ⟨hlength.trans hlength', fun i a c ha hc => ?_⟩
        have hlt : i < bs.length := by
          rw [← hlength]
          exact (List.getElem?_eq_some_iff.mp ha).1
        have hb := List.getElem?_eq_getElem hlt
        have hmem := List.mem_of_getElem? ha
        exact ih a hmem (has a hmem) (hbs _ (List.mem_of_getElem? hb))
          (hcs c (List.mem_of_getElem? hc)) (hab i a _ ha hb) (hbc i _ c hb hc)
      | differ hne => exact absurd hbc (hne _)
    | @map key value as bs hsh ha hb =>
      cases F.alike hF hb hc with
      | @map key' value' _ cs hsh' _ hc =>
        obtain ⟨rfl, rfl⟩ := ShapeDef.map.inj (hsh.symm.trans hsh')
        obtain ⟨hab, hba⟩ := (eqUpTo_map hsh).mp hab
        obtain ⟨hbc, hcb⟩ := (eqUpTo_map hsh).mp hbc
        have hon : ∀ e ∈ as, ∀ e' ∈ bs, ∀ e'' ∈ cs,
            F.StructEq key e.1 e'.1 ∧ F.StructEq value e.2 e'.2 →
            F.StructEq key e'.1 e''.1 ∧ F.StructEq value e'.2 e''.2 →
              F.StructEq key e.1 e''.1 ∧ F.StructEq value e.2 e''.2 := by
          intro e he e' he' e'' he'' h h'
          have hshape := ((hasShape_map hsh).mp ha).1 e he
          have hshape' := ((hasShape_map hsh).mp hb).1 e' he'
          have hshape'' := ((hasShape_map hsh).mp hc).1 e'' he''
          exact ⟨ih _ (Value.key_mem_parts he) hshape.1 hshape'.1 hshape''.1 h.1 h'.1,
            ih _ (Value.value_mem_parts he) hshape.2 hshape'.2 hshape''.2 h.2 h'.2⟩
        refine (eqUpTo_map hsh).mpr ⟨fun e he => ?_, fun e'' he'' => ?_⟩
        · obtain ⟨e', he', h⟩ := hab e he
          obtain ⟨e'', he'', h'⟩ := hbc e' he'
          exact ⟨e'', he'', hon e he e' he' e'' he'' h h'⟩
        · obtain ⟨e', he', h'⟩ := hcb e'' he''
          obtain ⟨e, he, h⟩ := hba e' he'
          exact ⟨e, he, hon e he e' he' e'' he'' h h'⟩
      | differ hne => exact absurd hbc (hne _)
    | @set elem as bs hsh ha hb =>
      cases F.alike hF hb hc with
      | @set elem' _ cs hsh' _ hc =>
        obtain rfl := ShapeDef.set.inj (hsh.symm.trans hsh')
        obtain ⟨hab, hba⟩ := (eqUpTo_set hsh).mp hab
        obtain ⟨hbc, hcb⟩ := (eqUpTo_set hsh).mp hbc
        have hon : ∀ a ∈ as, ∀ b ∈ bs, ∀ c ∈ cs, F.StructEq elem a b → F.StructEq elem b c →
            F.StructEq elem a c := by
          intro a hmem b hmem' c hmem'' h h'
          exact ih a hmem (((hasShape_set hsh).mp ha).1 a hmem)
            (((hasShape_set hsh).mp hb).1 b hmem') (((hasShape_set hsh).mp hc).1 c hmem'') h h'
        refine (eqUpTo_set hsh).mpr ⟨fun a ha => ?_, fun c hc => ?_⟩
        · obtain ⟨b, hb, h⟩ := hab a ha
          obtain ⟨c, hc, h'⟩ := hbc b hb
          exact ⟨c, hc, hon a ha b hb c hc h h'⟩
        · obtain ⟨b, hb, h'⟩ := hcb c hc
          obtain ⟨a, ha, h⟩ := hba b hb
          exact ⟨a, ha, hon a ha b hb c hc h h'⟩
      | differ hne => exact absurd hbc (hne _)
    | pointer hsh ha' hb' =>
      cases F.alike hF hb hc with
      | pointer hsh' _ hc' =>
        obtain rfl := ShapeDef.pointer.inj (hsh.symm.trans hsh')
        refine (structEq_pointer hsh).mpr ?_
        exact ih _ (List.mem_singleton_self _) ha' hb' hc' ((structEq_pointer hsh).mp hab)
          ((structEq_pointer hsh).mp hbc)
      | differ hne => exact absurd hbc (hne _)
    | differ hne => exact absurd hab (hne _)

/-- **Equal values are equal whatever is found.** -/
theorem StructEq.upTo (hF : F.Lawful) {a b : Value σ} (ha : F.HasShape sh a)
    (hb : F.HasShape sh b) (h : F.StructEq sh a b) : F.EqUpTo found sh a b := by
  induction a using Value.parts_induction generalizing sh b with
  | h a ih =>
    cases F.alike hF ha hb with
    | scalar hsh =>
      simp only [StructEq, EqUpTo] at h ⊢
      exact h
    | struct hsh hshaped =>
      refine (eqUpTo_struct hsh).mpr ?_
      exact hshaped.fieldwise_imp (fun field a hmem b ha hb h hmeta => ih a hmem ha hb (h hmeta))
        ((eqUpTo_struct hsh).mp h)
    | enum hsh hvariant hshaped =>
      refine (eqUpTo_enum hsh hvariant).mpr ?_
      exact hshaped.fieldwise_imp (fun field a hmem b ha hb h hmeta => ih a hmem ha hb (h hmeta))
        ((eqUpTo_enum hsh hvariant).mp h)
    | optionNone => simp only [EqUpTo]
    | optionSome hsh ha' hb' =>
      refine (eqUpTo_optionSome hsh).mpr ?_
      exact ih _ (List.mem_singleton_self _) ha' hb' ((eqUpTo_optionSome hsh).mp h)
    | resultOk hsh ha' hb' =>
      refine (eqUpTo_resultOk hsh).mpr ?_
      exact ih _ (List.mem_singleton_self _) ha' hb' ((eqUpTo_resultOk hsh).mp h)
    | resultErr hsh ha' hb' =>
      refine (eqUpTo_resultErr hsh).mpr ?_
      exact ih _ (List.mem_singleton_self _) ha' hb' ((eqUpTo_resultErr hsh).mp h)
    | seq hsh has hbs =>
      obtain ⟨hlength, h⟩ := (eqUpTo_seq hsh).mp h
      refine (eqUpTo_seq hsh).mpr ⟨hlength, fun i a b ha hb => ?_⟩
      have hmem := List.mem_of_getElem? ha
      exact ih a hmem (has a hmem) (hbs b (List.mem_of_getElem? hb)) (h i a b ha hb)
    | @map key value as bs hsh ha hb =>
      obtain ⟨hleft, hright⟩ := (eqUpTo_map hsh).mp h
      have hvalue : ∀ e ∈ as, ∀ e' ∈ bs, F.StructEq value e.2 e'.2 →
          F.EqUpTo found value e.2 e'.2 := by
        intro e he e' he' h
        exact ih _ (Value.value_mem_parts he) (((hasShape_map hsh).mp ha).1 e he).2
          (((hasShape_map hsh).mp hb).1 e' he').2 h
      refine (eqUpTo_map hsh).mpr ⟨fun e he => ?_, fun e' he' => ?_⟩
      · obtain ⟨e', he', hkey, h⟩ := hleft e he
        exact ⟨e', he', hkey, hvalue e he e' he' h⟩
      · obtain ⟨e, he, hkey, h⟩ := hright e' he'
        exact ⟨e, he, hkey, hvalue e he e' he' h⟩
    | set hsh => exact (eqUpTo_set hsh).mpr ((eqUpTo_set hsh).mp h)
    | pointer hsh ha' hb' =>
      refine (eqUpTo_pointer hsh).mpr (.inr ?_)
      exact ih _ (List.mem_singleton_self _) ha' hb' ((structEq_pointer hsh).mp h)
    | differ hne => exact absurd h (hne _)

/-- A map has one entry for a key. -/
theorem entry_eq_of_key (hF : F.Lawful) {key value : ShapeId} {es : List (Value σ × Value σ)}
    {e e' : Value σ × Value σ} (hsh : F.shapes sh = .map key value)
    (hshape : F.HasShape sh (.map es)) (he : e ∈ es) (he' : e' ∈ es)
    (hkey : F.StructEq key e.1 e'.1) : e = e' := by
  obtain ⟨hentries, hdistinct⟩ := (hasShape_map hsh).mp hshape
  refine Matching.eq_of_pairwise hdistinct (fun e he e' he' h => ?_) he he' hkey
  exact structEq_symm hF (hentries e he).1 (hentries e' he').1 h

end Facet

end FacetEq

end Picante

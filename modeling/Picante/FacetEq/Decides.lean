/-
# What the comparison decides

`peek_eq` says that two values of one shape are equal if and only if they are so where the pointers
are believed, and nothing in them is beyond it (`valueEq_iff`).  Beyond it are: a smart pointer
without a `partial_eq` of its own, or one that finds the pointees different; a sequence that
`into_list` does not take; and metadata in a variant, which it compares although it leaves that of a
struct out.

It is symmetric and transitive if the pointers are, and reflexive where it is whole; and setting an
input that is stored behind a pointer without a `partial_eq` to what it holds is a change every
time.
-/
import Picante.FacetEq.Alike

namespace Picante

namespace FacetEq

variable {σ : Type} {F : Facet σ} {sh : ShapeId}

namespace Facet

/-! ## 1. The loops -/

variable {fields : List FieldDef} {as bs : List (Value σ)}

theorem fieldwise_cons {R : FieldDef → Value σ → Value σ → Prop} {field : FieldDef}
    {a b : Value σ} :
    Fieldwise R (field :: fields) (a :: as) (b :: bs) ↔ R field a b ∧ Fieldwise R fields as bs := by
  constructor
  · intro h
    exact ⟨h 0 field a b rfl rfl rfl, fun i => h (i + 1)⟩
  · rintro ⟨h, hrest⟩ i
    cases i with
    | zero =>
      rintro _ _ _ ⟨⟩ ⟨⟩ ⟨⟩
      exact h
    | succ i => exact hrest i

theorem fieldsEq_iff {skip : Bool} (ha : as.length = fields.length)
    (hb : bs.length = fields.length) : F.fieldsEq skip fields as bs = true ↔
      Fieldwise (fun field a b => (skip && field.isMetadata) = false →
        F.valueEq field.shape a b = true) fields as bs := by
  induction fields generalizing as bs with
  | nil =>
    obtain rfl := List.length_eq_zero_iff.mp ha
    obtain rfl := List.length_eq_zero_iff.mp hb
    simp [fieldsEq, Fieldwise]
  | cons field fields ih =>
    obtain ⟨a, as, rfl⟩ := List.exists_cons_of_length_eq_add_one ha
    obtain ⟨b, bs, rfl⟩ := List.exists_cons_of_length_eq_add_one hb
    rw [fieldwise_cons, ← ih (Nat.succ.inj ha) (Nat.succ.inj hb), fieldsEq, Bool.and_eq_true,
      Bool.or_eq_true]
    cases h : skip && field.isMetadata <;> simp

theorem elemsEq_iff {elem : ShapeId} : F.elemsEq elem as bs = true ↔
    as.length = bs.length ∧
      ∀ (i : Nat) a b, as[i]? = some a → bs[i]? = some b → F.valueEq elem a b = true := by
  induction as generalizing bs with
  | nil => cases bs <;> simp [elemsEq]
  | cons a as ih =>
    cases bs with
    | nil => simp [elemsEq]
    | cons b bs =>
      rw [elemsEq, Bool.and_eq_true, ih, List.length_cons, List.length_cons,
        Nat.add_right_cancel_iff]
      constructor
      · rintro ⟨h, hlength, hrest⟩
        refine ⟨hlength, fun i => ?_⟩
        cases i with
        | zero =>
          rintro _ _ ⟨⟩ ⟨⟩
          exact h
        | succ i => exact hrest i
      · rintro ⟨hlength, h⟩
        exact ⟨h 0 a b rfl rfl, hlength, fun i => h (i + 1)⟩

theorem entriesEq_iff {value : ShapeId} {es es' : List (Value σ × Value σ)} :
    F.entriesEq sh value es es' = true ↔
      ∀ e ∈ es, ∃ b, F.getPeek sh es' e.1 = some b ∧ F.valueEq value e.2 b = true := by
  induction es with
  | nil => simp [entriesEq]
  | cons e es ih =>
    obtain ⟨k, a⟩ := e
    rw [entriesEq, Bool.and_eq_true, ih, List.forall_mem_cons]
    cases h : F.getPeek sh es' k <;> simp

/-! ## 2. Maps and sets -/

/-- Elements with keys of their own are matched both ways where the lists are as long as each
other. -/
theorem matched_iff (hF : F.Lawful) {A : Type} {keyOf : A → Value σ} {key : ShapeId}
    {es es' : List A} {R : A → A → Prop}
    (hkey : ∀ e e', R e e' → F.StructEq key (keyOf e) (keyOf e'))
    (hshape : ∀ e ∈ es, F.HasShape key (keyOf e)) (hshape' : ∀ e ∈ es', F.HasShape key (keyOf e))
    (hdistinct : es.Pairwise fun e e' => ¬ F.StructEq key (keyOf e) (keyOf e'))
    (hdistinct' : es'.Pairwise fun e e' => ¬ F.StructEq key (keyOf e) (keyOf e')) :
    (es.length = es'.length ∧ ∀ e ∈ es, ∃ e' ∈ es', R e e') ↔
      (∀ e ∈ es, ∃ e' ∈ es', R e e') ∧ ∀ e' ∈ es', ∃ e ∈ es, R e e' := by
  refine Matching.length_eq_and_matched_iff ?_ ?_
  · refine hdistinct.imp_of_mem fun {e₁ e₂} he₁ he₂ hne e' he' h₁ h₂ => hne ?_
    exact structEq_trans hF (hshape e₁ he₁) (hshape' e' he') (hshape e₂ he₂) (hkey e₁ e' h₁)
      (structEq_symm hF (hshape e₂ he₂) (hshape' e' he') (hkey e₂ e' h₂))
  · refine hdistinct'.imp_of_mem fun {e₁ e₂} he₁ he₂ hne e he h₁ h₂ => hne ?_
    exact structEq_trans hF (hshape' e₁ he₁) (hshape e he) (hshape' e₂ he₂)
      (structEq_symm hF (hshape e he) (hshape' e₁ he₁) (hkey e e₁ h₁)) (hkey e e₂ h₂)

/-- What the lookup of a map finds. -/
theorem getPeek_iff (hF : F.Lawful) {key value : ShapeId} {es : List (Value σ × Value σ)}
    {k b : Value σ} (hsh : F.shapes sh = .map key value) (hshape : F.HasShape sh (.map es))
    (hk : F.HasShape key k) :
    F.getPeek sh es k = some b ↔ ∃ e ∈ es, F.StructEq key k e.1 ∧ e.2 = b := by
  constructor
  · exact hF.getPeek_some hsh hshape hk
  · rintro ⟨e, he, hkey, rfl⟩
    cases hfound : F.getPeek sh es k with
    | none => exact absurd hkey (hF.getPeek_none hsh hshape hk hfound e he)
    | some b =>
      obtain ⟨e', he', hkey', rfl⟩ := hF.getPeek_some hsh hshape hk hfound
      have hentries := ((hasShape_map hsh).mp hshape).1
      have hsame := structEq_trans hF (hentries e' he').1 hk (hentries e he).1
        (structEq_symm hF hk (hentries e' he').1 hkey') hkey
      rw [entry_eq_of_key hF hsh hshape he' he hsame]

/-! ## 3. What is compared at each shape -/

theorem valueEq_struct (hsh : F.shapes sh = .struct fields) (h : F.FieldsShaped fields as bs) :
    F.valueEq sh (.struct as) (.struct bs) = true ↔
      Fieldwise (fun field a b => field.isMetadata = false → F.valueEq field.shape a b = true)
        fields as bs := by
  rw [valueEq, hsh]
  exact fieldsEq_iff h.1 h.2.1

theorem valueEq_enum {variants : List VariantDef} {variant : VariantDef} {i : Nat}
    (hsh : F.shapes sh = .enum variants) (hvariant : variants[i]? = some variant)
    (h : F.FieldsShaped variant.fields as bs) :
    F.valueEq sh (.enum i as) (.enum i bs) = true ↔
      Fieldwise (fun field a b => F.valueEq field.shape a b = true) variant.fields as bs := by
  rw [valueEq, hsh]
  simp only [hvariant, beq_self_eq_true, Bool.true_and]
  refine (fieldsEq_iff h.1 h.2.1).trans ?_
  simp only [Bool.false_and, forall_const]

theorem valueEq_seq {kind : SeqKind} {elem : ShapeId} (hsh : F.shapes sh = .seq kind elem) :
    F.valueEq sh (.seq as) (.seq bs) = true ↔ F.acceptsList kind = true ∧ as.length = bs.length ∧
      ∀ (i : Nat) a b, as[i]? = some a → bs[i]? = some b → F.valueEq elem a b = true := by
  rw [valueEq, hsh]
  simp only [Bool.and_eq_true, beq_iff_eq, elemsEq_iff]
  tauto

/-- **Maps of one length, each entry of the first found in the second.** -/
theorem valueEq_map (hF : F.Lawful) {key value : ShapeId} {es es' : List (Value σ × Value σ)}
    (hsh : F.shapes sh = .map key value) (ha : F.HasShape sh (.map es))
    (hb : F.HasShape sh (.map es')) : F.valueEq sh (.map es) (.map es') = true ↔
      (∀ e ∈ es, ∃ e' ∈ es', F.StructEq key e.1 e'.1 ∧ F.valueEq value e.2 e'.2 = true) ∧
        ∀ e' ∈ es', ∃ e ∈ es, F.StructEq key e.1 e'.1 ∧ F.valueEq value e.2 e'.2 = true := by
  obtain ⟨hentries, hdistinct⟩ := (hasShape_map hsh).mp ha
  obtain ⟨hentries', hdistinct'⟩ := (hasShape_map hsh).mp hb
  have hboth := matched_iff hF
    (fun e e' (h : F.StructEq key e.1 e'.1 ∧ F.valueEq value e.2 e'.2 = true) => h.1)
    (fun e he => (hentries e he).1) (fun e he => (hentries' e he).1) hdistinct hdistinct'
  rw [← hboth, valueEq, hsh]
  simp only [Bool.and_eq_true, beq_iff_eq, entriesEq_iff]
  refine and_congr_right fun _ => forall₂_congr fun e he => ?_
  constructor
  · rintro ⟨b, hget, heq⟩
    obtain ⟨e', he', hkey, rfl⟩ := (getPeek_iff hF hsh hb (hentries e he).1).mp hget
    exact ⟨e', he', hkey, heq⟩
  · rintro ⟨e', he', hkey, heq⟩
    exact ⟨e'.2, (getPeek_iff hF hsh hb (hentries e he).1).mpr ⟨e', he', hkey, rfl⟩, heq⟩

/-- **Sets of one length, each member of the first in the second.** -/
theorem valueEq_set (hF : F.Lawful) {elem : ShapeId} (hsh : F.shapes sh = .set elem)
    (ha : F.HasShape sh (.set as)) (hb : F.HasShape sh (.set bs)) :
    F.valueEq sh (.set as) (.set bs) = true ↔ F.StructEq sh (.set as) (.set bs) := by
  obtain ⟨helems, hdistinct⟩ := (hasShape_set hsh).mp ha
  obtain ⟨helems', hdistinct'⟩ := (hasShape_set hsh).mp hb
  have hboth := matched_iff hF (fun a b (h : F.StructEq elem a b) => h) helems helems' hdistinct
    hdistinct'
  rw [StructEq, eqUpTo_set hsh, ← hboth, valueEq, hsh]
  simp only [Bool.and_eq_true, beq_iff_eq, List.all_eq_true]
  refine and_congr_right fun _ => forall₂_congr fun a hmem => ?_
  exact hF.containsPeek hsh hb (helems a hmem)

/-! ## 4. The comparison -/

variable {R R' : FieldDef → Value σ → Value σ → Prop}

theorem FieldsShaped.fieldwise_congr (h : F.FieldsShaped fields as bs)
    (hR : ∀ field, ∀ a ∈ as, ∀ b, F.HasShape field.shape a → F.HasShape field.shape b →
      (R field a b ↔ R' field a b)) : Fieldwise R fields as bs ↔ Fieldwise R' fields as bs :=
  ⟨h.fieldwise_imp fun field a hmem b ha hb => (hR field a hmem b ha hb).mp,
    h.fieldwise_imp fun field a hmem b ha hb => (hR field a hmem b ha hb).mpr⟩

theorem fieldwise_and : (Fieldwise R fields as bs ∧ Fieldwise R' fields as bs) ↔
    Fieldwise (fun field a b => R field a b ∧ R' field a b) fields as bs := by
  constructor
  · rintro ⟨h, h'⟩ i field a b hfield ha hb
    exact ⟨h i field a b hfield ha hb, h' i field a b hfield ha hb⟩
  · intro h
    exact ⟨fun i field a b hfield ha hb => (h i field a b hfield ha hb).1,
      fun i field a b hfield ha hb => (h i field a b hfield ha hb).2⟩

/-- **Two values are found equal if and only if they are compared, and equal where the pointers are
believed.** -/
theorem valueEq_iff (hF : F.Lawful) {a b : Value σ} (ha : F.HasShape sh a) (hb : F.HasShape sh b) :
    F.valueEq sh a b = true ↔ F.LooseEq sh a b ∧ F.Compared sh a b := by
  induction a using Value.parts_induction generalizing sh b with
  | h a ih =>
    unfold LooseEq at ih ⊢
    cases F.alike hF ha hb with
    | scalar hsh => simp [valueEq, EqUpTo, Compared, hsh]
    | struct hsh hshaped =>
      rw [valueEq_struct hsh hshaped, eqUpTo_struct hsh, compared_struct hsh, fieldwise_and]
      refine hshaped.fieldwise_congr fun field a hmem b ha hb => ?_
      rw [ih a hmem ha hb]
      tauto
    | enum hsh hvariant hshaped =>
      rw [valueEq_enum hsh hvariant hshaped, eqUpTo_enum hsh hvariant, compared_enum hsh hvariant,
        fieldwise_and]
      refine hshaped.fieldwise_congr fun field a hmem b ha hb => ?_
      rw [ih a hmem ha hb, LooseEq]
      cases field.isMetadata <;> tauto
    | optionNone hsh => simp [valueEq, EqUpTo, Compared, hsh]
    | optionSome hsh ha' hb' =>
      rw [eqUpTo_optionSome hsh, compared_optionSome hsh, valueEq, hsh]
      exact ih _ (List.mem_singleton_self _) ha' hb'
    | resultOk hsh ha' hb' =>
      rw [eqUpTo_resultOk hsh, compared_resultOk hsh, valueEq, hsh]
      exact ih _ (List.mem_singleton_self _) ha' hb'
    | resultErr hsh ha' hb' =>
      rw [eqUpTo_resultErr hsh, compared_resultErr hsh, valueEq, hsh]
      exact ih _ (List.mem_singleton_self _) ha' hb'
    | @seq kind elem as bs hsh has hbs =>
      have helems : ∀ (i : Nat) a b, as[i]? = some a → bs[i]? = some b →
          (F.valueEq elem a b = true ↔ F.EqUpTo F.Found elem a b ∧ F.Compared elem a b) := by
        intro i a b ha hb
        have hmem := List.mem_of_getElem? ha
        exact ih a hmem (has a hmem) (hbs b (List.mem_of_getElem? hb))
      rw [valueEq_seq hsh, eqUpTo_seq hsh, compared_seq hsh]
      constructor
      · rintro ⟨haccepts, hlength, h⟩
        exact ⟨⟨hlength, fun i a b ha hb => ((helems i a b ha hb).mp (h i a b ha hb)).1⟩,
          haccepts, fun i a b ha hb => ((helems i a b ha hb).mp (h i a b ha hb)).2⟩
      · rintro ⟨⟨hlength, heq⟩, haccepts, hcompared⟩
        exact ⟨haccepts, hlength, fun i a b ha hb =>
          (helems i a b ha hb).mpr ⟨heq i a b ha hb, hcompared i a b ha hb⟩⟩
    | @map key value as bs hsh ha hb =>
      have hentries := ((hasShape_map hsh).mp ha).1
      have hentries' := ((hasShape_map hsh).mp hb).1
      have hvalue : ∀ e ∈ as, ∀ e' ∈ bs, (F.valueEq value e.2 e'.2 = true ↔
          F.EqUpTo F.Found value e.2 e'.2 ∧ F.Compared value e.2 e'.2) := by
        intro e he e' he'
        exact ih e.2 (Value.value_mem_parts he) (hentries e he).2 (hentries' e' he').2
      rw [valueEq_map hF hsh ha hb, eqUpTo_map hsh, compared_map hsh]
      constructor
      · rintro ⟨hleft, hright⟩
        refine ⟨⟨fun e he => ?_, fun e' he' => ?_⟩, fun e he e' he' hkey => ?_⟩
        · obtain ⟨e', he', hkey, h⟩ := hleft e he
          exact ⟨e', he', hkey, ((hvalue e he e' he').mp h).1⟩
        · obtain ⟨e, he, hkey, h⟩ := hright e' he'
          exact ⟨e, he, hkey, ((hvalue e he e' he').mp h).1⟩
        · -- the entry that `e` was compared with is `e'`, whose key is equal
          obtain ⟨e'', he'', hkey', h⟩ := hleft e he
          have hsame := structEq_trans hF (hentries' e'' he'').1 (hentries e he).1
            (hentries' e' he').1 (structEq_symm hF (hentries e he).1 (hentries' e'' he'').1 hkey')
            hkey
          rw [entry_eq_of_key hF hsh hb he'' he' hsame] at h
          exact ((hvalue e he e' he').mp h).2
      · rintro ⟨⟨hleft, hright⟩, hcompared⟩
        refine ⟨fun e he => ?_, fun e' he' => ?_⟩
        · obtain ⟨e', he', hkey, h⟩ := hleft e he
          exact ⟨e', he', hkey, (hvalue e he e' he').mpr ⟨h, hcompared e he e' he' hkey⟩⟩
        · obtain ⟨e, he, hkey, h⟩ := hright e' he'
          exact ⟨e, he, hkey, (hvalue e he e' he').mpr ⟨h, hcompared e he e' he' hkey⟩⟩
    | set hsh ha hb =>
      rw [valueEq_set hF hsh ha hb, StructEq, eqUpTo_set hsh, eqUpTo_set hsh]
      simp [Compared]
    | pointer hsh ha' hb' =>
      rw [eqUpTo_pointer hsh, Compared, valueEq_pointer hsh]
      tauto
    | differ hne hvalue => simp [hne, hvalue]

/-- **The comparison goes both ways**, if that of the pointers does. -/
theorem valueEq_symm (hF : F.Lawful) (hP : F.PartialEqs) {a b : Value σ} (ha : F.HasShape sh a)
    (hb : F.HasShape sh b) (h : F.valueEq sh a b = true) : F.valueEq sh b a = true := by
  induction a using Value.parts_induction generalizing sh b with
  | h a ih =>
    cases F.alike hF ha hb with
    | scalar hsh =>
      rw [valueEq, hsh] at h ⊢
      exact (hF.scalar sh).symm h
    | struct hsh hshaped =>
      refine (valueEq_struct hsh hshaped.symm).mpr ?_
      exact hshaped.fieldwise_symm
        (fun field a hmem b ha hb h hmeta => ih a hmem ha hb (h hmeta))
        ((valueEq_struct hsh hshaped).mp h)
    | enum hsh hvariant hshaped =>
      refine (valueEq_enum hsh hvariant hshaped.symm).mpr ?_
      exact hshaped.fieldwise_symm (fun field a hmem b ha hb h => ih a hmem ha hb h)
        ((valueEq_enum hsh hvariant hshaped).mp h)
    | optionNone => exact h
    | optionSome hsh ha' hb' =>
      rw [valueEq, hsh] at h ⊢
      exact ih _ (List.mem_singleton_self _) ha' hb' h
    | resultOk hsh ha' hb' =>
      rw [valueEq, hsh] at h ⊢
      exact ih _ (List.mem_singleton_self _) ha' hb' h
    | resultErr hsh ha' hb' =>
      rw [valueEq, hsh] at h ⊢
      exact ih _ (List.mem_singleton_self _) ha' hb' h
    | seq hsh has hbs =>
      obtain ⟨haccepts, hlength, h⟩ := (valueEq_seq hsh).mp h
      refine (valueEq_seq hsh).mpr ⟨haccepts, hlength.symm, fun i b a hb ha => ?_⟩
      have hmem := List.mem_of_getElem? ha
      exact ih a hmem (has a hmem) (hbs b (List.mem_of_getElem? hb)) (h i a b ha hb)
    | @map key value as bs hsh ha hb =>
      obtain ⟨hleft, hright⟩ := (valueEq_map hF hsh ha hb).mp h
      have hback : ∀ e ∈ as, ∀ e' ∈ bs, F.StructEq key e.1 e'.1 ∧ F.valueEq value e.2 e'.2 = true →
          F.StructEq key e'.1 e.1 ∧ F.valueEq value e'.2 e.2 = true := by
        intro e he e' he' h
        have hshape := ((hasShape_map hsh).mp ha).1 e he
        have hshape' := ((hasShape_map hsh).mp hb).1 e' he'
        exact ⟨structEq_symm hF hshape.1 hshape'.1 h.1,
          ih _ (Value.value_mem_parts he) hshape.2 hshape'.2 h.2⟩
      refine (valueEq_map hF hsh hb ha).mpr ⟨fun e' he' => ?_, fun e he => ?_⟩
      · obtain ⟨e, he, h⟩ := hright e' he'
        exact ⟨e, he, hback e he e' he' h⟩
      · obtain ⟨e', he', h⟩ := hleft e he
        exact ⟨e', he', hback e he e' he' h⟩
    | set hsh ha hb =>
      have heq := (valueEq_set hF hsh ha hb).mp h
      exact (valueEq_set hF hsh hb ha).mpr (structEq_symm hF ha hb heq)
    | pointer hsh ha' hb' =>
      exact (valueEq_pointer hsh).mpr (hP.symm hsh ha' hb' ((valueEq_pointer hsh).mp h))
    | differ _ hvalue =>
      rw [hvalue] at h
      cases h

/-- **And on.** -/
theorem valueEq_trans (hF : F.Lawful) (hP : F.PartialEqs) {a b c : Value σ}
    (ha : F.HasShape sh a) (hb : F.HasShape sh b) (hc : F.HasShape sh c)
    (hab : F.valueEq sh a b = true) (hbc : F.valueEq sh b c = true) : F.valueEq sh a c = true := by
  induction a using Value.parts_induction generalizing sh b c with
  | h a ih =>
    have hdiffer : F.valueEq sh b c ≠ false := fun h => by
      rw [h] at hbc
      cases hbc
    cases F.alike hF ha hb with
    | scalar hsh =>
      cases F.alike hF hb hc with
      | scalar =>
        rw [valueEq, hsh] at hab hbc ⊢
        exact (hF.scalar sh).trans hab hbc
      | differ _ hvalue => exact absurd hvalue hdiffer
    | @struct fields as bs hsh hshaped =>
      cases F.alike hF hb hc with
      | struct hsh' hshaped' =>
        obtain rfl := ShapeDef.struct.inj (hsh.symm.trans hsh')
        refine (valueEq_struct hsh (hshaped.trans hshaped')).mpr ?_
        exact hshaped.fieldwise_trans hshaped'
          (fun field a hmem b c ha hb hc hab hbc hmeta =>
            ih a hmem ha hb hc (hab hmeta) (hbc hmeta))
          ((valueEq_struct hsh hshaped).mp hab) ((valueEq_struct hsh hshaped').mp hbc)
      | differ _ hvalue => exact absurd hvalue hdiffer
    | @enum variants variant n as bs hsh hvariant hshaped =>
      cases F.alike hF hb hc with
      | enum hsh' hvariant' hshaped' =>
        obtain rfl := ShapeDef.enum.inj (hsh.symm.trans hsh')
        obtain rfl := Option.some.inj (hvariant.symm.trans hvariant')
        refine (valueEq_enum hsh hvariant (hshaped.trans hshaped')).mpr ?_
        exact hshaped.fieldwise_trans hshaped'
          (fun field a hmem b c ha hb hc hab hbc => ih a hmem ha hb hc hab hbc)
          ((valueEq_enum hsh hvariant hshaped).mp hab)
          ((valueEq_enum hsh hvariant hshaped').mp hbc)
      | differ _ hvalue => exact absurd hvalue hdiffer
    | optionNone hsh =>
      cases F.alike hF hb hc with
      | optionNone => exact hab
      | differ _ hvalue => exact absurd hvalue hdiffer
    | optionSome hsh ha' hb' =>
      cases F.alike hF hb hc with
      | optionSome hsh' _ hc' =>
        obtain rfl := ShapeDef.option.inj (hsh.symm.trans hsh')
        rw [valueEq, hsh] at hab hbc ⊢
        exact ih _ (List.mem_singleton_self _) ha' hb' hc' hab hbc
      | differ _ hvalue => exact absurd hvalue hdiffer
    | resultOk hsh ha' hb' =>
      cases F.alike hF hb hc with
      | resultOk hsh' _ hc' =>
        obtain ⟨rfl, rfl⟩ := ShapeDef.result.inj (hsh.symm.trans hsh')
        rw [valueEq, hsh] at hab hbc ⊢
        exact ih _ (List.mem_singleton_self _) ha' hb' hc' hab hbc
      | differ _ hvalue => exact absurd hvalue hdiffer
    | resultErr hsh ha' hb' =>
      cases F.alike hF hb hc with
      | resultErr hsh' _ hc' =>
        obtain ⟨rfl, rfl⟩ := ShapeDef.result.inj (hsh.symm.trans hsh')
        rw [valueEq, hsh] at hab hbc ⊢
        exact ih _ (List.mem_singleton_self _) ha' hb' hc' hab hbc
      | differ _ hvalue => exact absurd hvalue hdiffer
    | @seq kind elem as bs hsh has hbs =>
      cases F.alike hF hb hc with
      | @seq kind' elem' _ cs hsh' hbs' hcs =>
        obtain ⟨rfl, rfl⟩ := ShapeDef.seq.inj (hsh.symm.trans hsh')
        obtain ⟨haccepts, hlength, hab⟩ := (valueEq_seq hsh).mp hab
        obtain ⟨-, hlength', hbc⟩ := (valueEq_seq hsh).mp hbc
        refine (valueEq_seq hsh).mpr ⟨haccepts, hlength.trans hlength', fun i a c ha hc => ?_⟩
        have hlt : i < bs.length := by
          rw [← hlength]
          exact (List.getElem?_eq_some_iff.mp ha).1
        have hb := List.getElem?_eq_getElem hlt
        have hmem := List.mem_of_getElem? ha
        exact ih a hmem (has a hmem) (hbs _ (List.mem_of_getElem? hb))
          (hcs c (List.mem_of_getElem? hc)) (hab i a _ ha hb) (hbc i _ c hb hc)
      | differ _ hvalue => exact absurd hvalue hdiffer
    | @map key value as bs hsh ha hb =>
      cases F.alike hF hb hc with
      | @map key' value' _ cs hsh' _ hc =>
        obtain ⟨rfl, rfl⟩ := ShapeDef.map.inj (hsh.symm.trans hsh')
        obtain ⟨hab, hba⟩ := (valueEq_map hF hsh ha hb).mp hab
        obtain ⟨hbc, hcb⟩ := (valueEq_map hF hsh hb hc).mp hbc
        have hon : ∀ e ∈ as, ∀ e' ∈ bs, ∀ e'' ∈ cs,
            F.StructEq key e.1 e'.1 ∧ F.valueEq value e.2 e'.2 = true →
            F.StructEq key e'.1 e''.1 ∧ F.valueEq value e'.2 e''.2 = true →
              F.StructEq key e.1 e''.1 ∧ F.valueEq value e.2 e''.2 = true := by
          intro e he e' he' e'' he'' h h'
          have hshape := ((hasShape_map hsh).mp ha).1 e he
          have hshape' := ((hasShape_map hsh).mp hb).1 e' he'
          have hshape'' := ((hasShape_map hsh).mp hc).1 e'' he''
          exact ⟨structEq_trans hF hshape.1 hshape'.1 hshape''.1 h.1 h'.1,
            ih _ (Value.value_mem_parts he) hshape.2 hshape'.2 hshape''.2 h.2 h'.2⟩
        refine (valueEq_map hF hsh ha hc).mpr ⟨fun e he => ?_, fun e'' he'' => ?_⟩
        · obtain ⟨e', he', h⟩ := hab e he
          obtain ⟨e'', he'', h'⟩ := hbc e' he'
          exact ⟨e'', he'', hon e he e' he' e'' he'' h h'⟩
        · obtain ⟨e', he', h'⟩ := hcb e'' he''
          obtain ⟨e, he, h⟩ := hba e' he'
          exact ⟨e, he, hon e he e' he' e'' he'' h h'⟩
      | differ _ hvalue => exact absurd hvalue hdiffer
    | set hsh ha hb =>
      cases F.alike hF hb hc with
      | set _ _ hc =>
        have hab := (valueEq_set hF hsh ha hb).mp hab
        have hbc := (valueEq_set hF hsh hb hc).mp hbc
        exact (valueEq_set hF hsh ha hc).mpr (structEq_trans hF ha hb hc hab hbc)
      | differ _ hvalue => exact absurd hvalue hdiffer
    | pointer hsh ha' hb' =>
      cases F.alike hF hb hc with
      | pointer hsh' _ hc' =>
        obtain rfl := ShapeDef.pointer.inj (hsh.symm.trans hsh')
        have hab := (valueEq_pointer hsh).mp hab
        have hbc := (valueEq_pointer hsh).mp hbc
        exact (valueEq_pointer hsh).mpr (hP.trans hsh ha' hb' hc' hab hbc)
      | differ _ hvalue => exact absurd hvalue hdiffer
    | differ _ hvalue =>
      rw [hvalue] at hab
      cases hab

/-- `peek_eq` on two values of one shape. -/
theorem peekEq_same (a b : Value σ) : F.peekEq ⟨sh, a⟩ ⟨sh, b⟩ = F.valueEq sh a b := by
  rw [peekEq, beq_self_eq_true, Bool.true_and]

/-! ## 5. Setting an input -/

variable {revision : Revision} {inputs : Inputs (Value σ)} {k : DynKey}

/-- A slot is left as it is where it is found to hold the value. -/
theorem set_eq_self_iff {a b : Value σ} (hslot : inputs.get k = some a) :
    (F.set sh revision inputs k b).1 = revision ↔ F.peekEq ⟨sh, a⟩ ⟨sh, b⟩ = true := by
  rw [set, hslot]
  dsimp only
  split
  · exact iff_of_true rfl ‹_›
  · exact iff_of_false (Nat.succ_ne_self revision) ‹_›

/-- **Setting what is stored behind a pointer is no change if and only if the pointer's own
`partial_eq` finds it equal.** -/
theorem set_pointer_iff {a b : Value σ} {data : ShapeId} (hsh : F.shapes sh = .pointer data)
    (hslot : inputs.get k = some (.pointer a)) :
    (F.set sh revision inputs k (.pointer b)).1 = revision ↔ F.Found sh a b := by
  rw [set_eq_self_iff hslot, peekEq_same, valueEq_pointer hsh]

/-- **What `peek_eq` decides.**  Of two values of one shape it says whether they are structurally
equal if and only if

* where they are, all of them is compared, and
* where they are not, something is not compared, or they differ also if the pointers are believed.

It is reflexive on the values that are compared whole, and symmetric and transitive on all if the
`partial_eq` of the pointers are.  Setting a keyed input, stored behind a pointer to its data,
leaves the revision where it is if and only if the pointer's own `partial_eq` finds the data equal,
so it never does if the data does not provide one. -/
theorem equal_iff_compared {σ : Type} (F : Facet σ) (hF : F.Lawful) :
    (∀ sh a b, F.HasShape sh a → F.HasShape sh b →
      ((F.peekEq ⟨sh, a⟩ ⟨sh, b⟩ = true ↔ F.StructEq sh a b) ↔
        (F.StructEq sh a b → F.Compared sh a b) ∧
          (F.Compared sh a b → F.LooseEq sh a b → F.StructEq sh a b))) ∧
    (∀ sh a, F.HasShape sh a → (F.peekEq ⟨sh, a⟩ ⟨sh, a⟩ = true ↔ F.Compared sh a a)) ∧
    (F.PartialEqs → ∀ sh a b, F.HasShape sh a → F.HasShape sh b →
      F.peekEq ⟨sh, a⟩ ⟨sh, b⟩ = true → F.peekEq ⟨sh, b⟩ ⟨sh, a⟩ = true) ∧
    (F.PartialEqs → ∀ sh a b c, F.HasShape sh a → F.HasShape sh b → F.HasShape sh c →
      F.peekEq ⟨sh, a⟩ ⟨sh, b⟩ = true → F.peekEq ⟨sh, b⟩ ⟨sh, c⟩ = true →
        F.peekEq ⟨sh, a⟩ ⟨sh, c⟩ = true) ∧
    (∀ sh data revision inputs k a b, F.shapes sh = .pointer data →
      inputs.get k = some (.pointer a) →
        ((F.set sh revision inputs k (.pointer b)).1 = revision ↔ F.Found sh a b)) ∧
    (∀ sh data revision inputs k a b, F.shapes sh = .pointer data →
      inputs.get k = some (.pointer a) → F.providesPartialEq data = false →
        (F.set sh revision inputs k (.pointer b)).1 ≠ revision) := by
  simp only [peekEq_same]
  refine ⟨fun sh a b ha hb => ?_, fun sh a ha => ?_, fun hP sh a b => valueEq_symm hF hP,
    fun hP sh a b c => valueEq_trans hF hP, fun sh data revision inputs k a b => set_pointer_iff,
    fun sh data revision inputs k a b hsh hslot hdata hsame => ?_⟩
  · have hloose : F.StructEq sh a b → F.LooseEq sh a b := fun h => h.upTo hF ha hb
    rw [valueEq_iff hF ha hb]
    tauto
  · rw [valueEq_iff hF ha ha]
    exact and_iff_right ((structEq_refl hF ha).upTo hF ha ha)
  · obtain ⟨eq, heq, -⟩ := (set_pointer_iff hsh hslot).mp hsame
    have hpartial := hF.pointer_partialEq hsh (Option.isSome_of_eq_some heq)
    rw [hdata] at hpartial
    cases hpartial

end Facet

/-! ## 6. A note set twice -/

namespace Notes

/-- An input `Note` with one field: the scalars are strings (shape 0), its data is a struct that
derives `Facet` alone (1) and stored behind an `Arc` (2); a `Vec` of such data is 3. -/
def notes : Facet String where
  shapes
    | 1 => .struct [⟨"text", false, 0⟩]
    | 2 => .pointer 1
    | 3 => .seq .list 1
    | _ => .scalar
  providesPartialEq sh := sh == 0
  scalarEq _ s t := s == t
  pointerEq _ := none
  acceptsList kind := kind == .list
  getPeek _ _ _ := none
  containsPeek _ _ _ := false

/-- No enum, map or set is stored. -/
theorem shapes_ne {sh : ShapeId} : (∀ variants, notes.shapes sh ≠ .enum variants) ∧
    (∀ key value, notes.shapes sh ≠ .map key value) ∧ ∀ elem, notes.shapes sh ≠ .set elem := by
  simp only [notes]
  refine ⟨fun _ => ?_, fun _ _ => ?_, fun _ => ?_⟩ <;> split <;> nofun

theorem lawful_notes : notes.Lawful where
  scalar sh := by
    refine ⟨fun s => ?_, fun h => ?_, fun h h' => ?_⟩ <;> simp only [notes, beq_iff_eq] at *
    · exact h.symm
    · exact h.trans h'
  variants hsh := absurd hsh (shapes_ne.1 _)
  list := rfl
  getPeek_some hsh := absurd hsh (shapes_ne.2.1 _ _)
  getPeek_none hsh := absurd hsh (shapes_ne.2.1 _ _)
  containsPeek hsh := absurd hsh (shapes_ne.2.2 _)
  pointer_partialEq _ hsome := by cases hsome

/-- The data of a note. -/
def data : Value String := .struct [.scalar "one"]

theorem hasShape_data : notes.HasShape 1 data := by
  have hsh : notes.shapes 1 = .struct [⟨"text", false, 0⟩] := rfl
  simp only [data, Facet.HasShape]
  refine ⟨_, hsh, rfl, fun i field a hfield ha => ?_⟩
  cases i with
  | zero =>
    obtain rfl := Option.some.inj hfield
    obtain rfl := Option.some.inj ha
    simp only [Facet.HasShape]
    rfl
  | succ i => cases hfield

/-- The slots after a note was set, at revision 1. -/
def slots : Inputs (Value String) := fun _ => some ⟨some (.pointer data), 1⟩

/-- **The note's data is not found equal to itself, and setting it again bumps the revision.** -/
theorem same_note_is_a_change : ¬ ∀ (σ : Type) (F : Facet σ), F.Lawful →
    (∀ sh a b, F.HasShape sh a → F.HasShape sh b →
      (F.peekEq ⟨sh, a⟩ ⟨sh, b⟩ = true ↔ F.StructEq sh a b)) ∧
    (∀ sh a, F.HasShape sh a → F.peekEq ⟨sh, a⟩ ⟨sh, a⟩ = true) ∧
    (∀ sh data revision inputs k a b, F.shapes sh = .pointer data → F.HasShape data a →
      F.HasShape data b → inputs.get k = some (.pointer a) → F.StructEq data a b →
        (F.set sh revision inputs k (.pointer b)).1 = revision) := by
  intro h
  obtain ⟨-, -, hset⟩ := h String notes lawful_notes
  have hsame := hset 2 1 1 slots ⟨0, []⟩ data data rfl hasShape_data hasShape_data rfl
    (Facet.structEq_refl lawful_notes hasShape_data)
  exact absurd hsame (by decide)

/-- A list of the data of two notes is found equal to itself, though the data has no `partial_eq`; a
note is not. -/
theorem list_is_equal_note_is_not :
    notes.peekEq ⟨3, .seq [data, data]⟩ ⟨3, .seq [data, data]⟩ = true ∧
      ¬ notes.peekEq ⟨2, .pointer data⟩ ⟨2, .pointer data⟩ = true := by
  have hself := (Facet.equal_iff_compared notes lawful_notes).2.1
  have hdata : notes.Compared 1 data data := by
    refine (Facet.compared_struct (F := notes) rfl).mpr fun i field a b hfield ha hb _ => ?_
    cases i with
    | zero =>
      obtain rfl := Option.some.inj hfield
      obtain rfl := Option.some.inj ha
      obtain rfl := Option.some.inj hb
      simp only [Facet.Compared]
    | succ i => cases hfield
  refine ⟨(hself 3 (.seq [data, data]) ?_).mpr ?_, fun h => ?_⟩
  · simp only [Facet.HasShape]
    refine ⟨.list, 1, rfl, fun a ha => ?_⟩
    obtain rfl : a = data := by simpa using ha
    exact hasShape_data
  · refine (Facet.compared_seq rfl).mpr ⟨rfl, fun i a b ha hb => ?_⟩
    obtain rfl : a = b := Option.some.inj (ha.symm.trans hb)
    obtain rfl : a = data := by simpa using List.mem_of_getElem? ha
    exact hdata
  · have hcompared := (hself 2 (.pointer data) ?_).mp h
    · simp only [Facet.Compared] at hcompared
      obtain ⟨eq, heq, -⟩ := hcompared
      cases heq
    · simp only [Facet.HasShape]
      exact ⟨1, rfl, hasShape_data⟩

end Notes

end FacetEq

end Picante

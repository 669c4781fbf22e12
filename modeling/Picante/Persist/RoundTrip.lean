/-
# A saved cache is loaded as it was

Saving a database and loading the file into a fresh one restores, for every listed ingredient,
what the ingredient holds (`PartRestored`): the input slots with their stamps, the interning table
in both directions, and the ready cells; and the revision, and the dependency graph, which is not
in the file and is rebuilt from the cells (`cache_round_trip`).

The argument goes ingredient by ingredient.  The records of one list the entries of its maps, and
loading writes them back (`Tables.write_entries`); it changes no ingredient of another kind
(`Agree`), so a list of ingredients of distinct kinds is restored part by part.
-/
import Picante.Persist.Rejected
import Picante.Coherence.Native

namespace Picante

open Tables Config

variable {V : Type}

/-! ## 1. The parts of a database -/

/-- The two databases hold the same of a kind. -/
structure Database.Agree (kind : QueryKindId) (db db' : Database V) : Prop where
  inputs : ∀ key, db'.inputs ⟨kind, key⟩ = db.inputs ⟨kind, key⟩
  cells : ∀ key, db'.cells ⟨kind, key⟩ = db.cells ⟨kind, key⟩
  interned : db'.interned kind = db.interned kind

namespace Database.Agree

variable {kind : QueryKindId} {db db' db'' : Database V}

theorem refl (kind : QueryKindId) (db : Database V) : Agree kind db db :=
  ⟨fun _ => rfl, fun _ => rfl, rfl⟩

theorem trans (h : Agree kind db db') (h' : Agree kind db' db'') : Agree kind db db'' :=
  ⟨fun key => (h'.inputs key).trans (h.inputs key), fun key => (h'.cells key).trans (h.cells key),
    h'.interned.trans h.interned⟩

end Database.Agree

/-- What a cell is restored as: a ready cell with its record, any other as a new one. -/
def ErasedCell.restored (c : ErasedCell V) : ErasedCell V :=
  match c.state.record with
  | some r => .newReady r
  | none => .new

theorem ErasedCell.record_restored (c : ErasedCell V) :
    c.restored.state.record = c.state.record := by
  unfold restored
  cases h : c.state.record <;> rfl

/-- A table in which the two directions are inverse to each other. -/
def InternedIngredient.Inverse (t : InternedIngredient V) : Prop :=
  ∀ id v, t.byId id = some v ↔ t.byValue v = some id

/-- What the ingredient holds has been restored: every slot, or every ready cell and nothing else,
or the table in both directions, with a next id above all ids in use. -/
def PartRestored (i : PersistableIngredient) (db db' : Database V) : Prop :=
  match i.sectionType with
  | .input => ∀ key, db'.inputs ⟨i.kind, key⟩ = db.inputs ⟨i.kind, key⟩
  | .derived => ∀ key, db'.cells ⟨i.kind, key⟩ = (db.cells ⟨i.kind, key⟩).restored
  | .interned => (db'.interned i.kind).byId = (db.interned i.kind).byId ∧
      (db'.interned i.kind).byValue = (db.interned i.kind).byValue ∧
        ∀ id v, (db'.interned i.kind).byId id = some v → id < (db'.interned i.kind).nextId

/-- The ingredient holds nothing. -/
def PartBlank (i : PersistableIngredient) (db : Database V) : Prop :=
  match i.sectionType with
  | .input => ∀ key, db.inputs ⟨i.kind, key⟩ = none
  | .derived => ∀ key, db.cells ⟨i.kind, key⟩ = .new
  | .interned => True

theorem PartRestored.of_agree {i : PersistableIngredient} {db db₁ db₂ : Database V}
    (h : PartRestored i db db₁) (ha : Database.Agree i.kind db₁ db₂) : PartRestored i db db₂ := by
  unfold PartRestored at h ⊢
  cases hi : i.sectionType with
  | input =>
    simp only [hi] at h ⊢
    exact fun key => (ha.inputs key).trans (h key)
  | derived =>
    simp only [hi] at h ⊢
    exact fun key => (ha.cells key).trans (h key)
  | interned => simpa only [hi, ha.interned] using h

theorem PartBlank.of_agree {i : PersistableIngredient} {db₁ db₂ : Database V}
    (h : PartBlank i db₁) (ha : Database.Agree i.kind db₁ db₂) : PartBlank i db₂ := by
  unfold PartBlank at h ⊢
  cases hi : i.sectionType with
  | input =>
    simp only [hi] at h ⊢
    exact fun key => (ha.inputs key).trans (h key)
  | derived =>
    simp only [hi] at h ⊢
    exact fun key => (ha.cells key).trans (h key)
  | interned => trivial

/-! ## 2. The records of one ingredient -/

section records

variable {C : Codec V} {kind : QueryKindId} {records : List Bytes}

/-- Loading encoded slots writes them. -/
theorem loadInputs_encoded (hC : C.RoundTrip) {slots : List (Key × InputEntry V)}
    (h : List.Forall₂ (fun s bytes => C.encodeInput kind s.1 s.2 = .ok bytes) slots records)
    (inputs : Inputs V) :
    loadInputs C kind inputs records =
      (.ok (), write inputs (slots.map fun s => (⟨kind, s.1⟩, some s.2))) := by
  induction h generalizing inputs with
  | nil => rfl
  | @cons s bytes slots records hs _ ih =>
    simp only [loadInputs, hC.input hs, List.map_cons, write_cons]
    exact ih _

/-- Loading encoded cells writes them. -/
theorem loadDerived_encoded (hC : C.RoundTrip) {cells : List (Key × DerivedRecord V)}
    (h : List.Forall₂ (fun r bytes => C.encodeDerived kind r.1 r.2 = .ok bytes) cells records)
    (map : DynKey → ErasedCell V) :
    loadDerived C kind map records =
      (.ok (), write map (cells.map fun r => (⟨kind, r.1⟩, .newReady r.2))) := by
  induction h generalizing map with
  | nil => rfl
  | @cons r bytes cells records hr _ ih =>
    simp only [loadDerived, hC.derived hr, List.map_cons, write_cons]
    exact ih _

variable [DecidableEq V]

/-- Loading encoded values that are new to the table writes them, in both directions. -/
theorem loadInterned_encoded (hC : C.RoundTrip) {i : PersistableIngredient}
    {values : List (Nat × V)}
    (h : List.Forall₂ (fun e bytes => C.encodeInterned i.kind e.1 e.2 = .ok bytes) values records)
    {t : InternedIngredient V} (maxId : Nat) (hnew : NewTo t values) :
    ∃ t', loadInterned C i t maxId records = (.ok (), t') ∧
      t'.byId = write t.byId (values.map fun e => (e.1, some e.2)) ∧
        t'.byValue = write t.byValue (values.map fun e => (e.2, some e.1)) ∧
          maxId < t'.nextId ∧ ∀ e ∈ values, e.1 < t'.nextId := by
  induction h generalizing t maxId with
  | nil =>
    exact ⟨_, rfl, rfl, rfl, Nat.lt_succ_self _, fun _ h => absurd h List.not_mem_nil⟩
  | @cons e bytes values records he _ ih =>
    obtain ⟨id, v⟩ := e
    obtain ⟨⟨hid, hval⟩, hrest⟩ := newTo_cons.mp hnew
    obtain ⟨t', hload, hbyId, hbyValue, hmax, hids⟩ := ih (max maxId id) hrest
    refine ⟨t', ?_, hbyId, hbyValue, Nat.lt_of_le_of_lt (Nat.le_max_left ..) hmax, ?_⟩
    · simp [loadInterned, hC.interned he, hid, hval, hload]
    · intro e' he'
      rcases List.mem_cons.mp he' with rfl | he'
      · exact Nat.lt_of_le_of_lt (Nat.le_max_right ..) hmax
      · exact hids e' he'

end records

theorem dynKey_injective (kind : QueryKindId) : Function.Injective (DynKey.mk kind) :=
  fun _ _ heq => (DynKey.mk.inj heq).2

section part

variable [DecidableEq V] {C : Codec V} {o : Order} {i : PersistableIngredient} {db db₁ : Database V}
  {records : List Bytes}

/-- Loading changes no ingredient of another kind. -/
theorem agree_loadRecords (db₁ : Database V) (hC : C.RoundTrip)
    (hsave : db.saveRecords o C i = .ok records) (kind : QueryKindId) (hne : kind ≠ i.kind) :
    Database.Agree kind db₁ (db₁.loadRecords C i records).2 := by
  have hkey : ∀ key key', DynKey.mk i.kind key ≠ ⟨kind, key'⟩ :=
    fun _ _ heq => hne (DynKey.mk.inj heq).1.symm
  unfold Database.saveRecords at hsave
  unfold Database.loadRecords
  cases hi : i.sectionType with
  | input =>
    simp only [hi] at hsave ⊢
    rw [loadInputs_encoded hC (mapM_eq_ok_iff.mp hsave)]
    exact ⟨fun key => write_entries_elsewhere _ _ _ fun key' => hkey key' key, fun _ => rfl, rfl⟩
  | derived =>
    simp only [hi] at hsave ⊢
    rw [loadDerived_encoded hC (mapM_eq_ok_iff.mp hsave)]
    exact ⟨fun _ => rfl, fun key => write_entries_elsewhere _ _ _ fun key' => hkey key' key, rfl⟩
  | interned => exact ⟨fun _ => rfl, fun _ => rfl, Function.update_of_ne hne ..⟩

/-- Loading changes the cells of its own kind only, if it is a derived ingredient. -/
theorem cells_loadRecords (hC : C.RoundTrip) (hsave : db.saveRecords o C i = .ok records)
    {q : DynKey} (hq : i.sectionType = .derived → i.kind ≠ q.kind) :
    (db₁.loadRecords C i records).2.cells q = db₁.cells q := by
  unfold Database.saveRecords at hsave
  unfold Database.loadRecords
  cases hi : i.sectionType with
  | input => rfl
  | derived =>
    simp only [hi] at hsave ⊢
    rw [loadDerived_encoded hC (mapM_eq_ok_iff.mp hsave)]
    refine write_entries_elsewhere _ _ _ fun key heq => hq hi ?_
    rw [← heq]
  | interned => rfl

omit [DecidableEq V] in
/-- The ids and the values of a table in which the directions are inverse are distinct. -/
theorem newTo_internedRecords {kind : QueryKindId} (ho : o.Lists db)
    (hinv : (db.interned kind).Inverse) :
    NewTo (.empty : InternedIngredient V) (db.internedRecords o kind) := by
  have hids : ((db.internedRecords o kind).map Prod.fst).Nodup := nodup_entries (ho.ids_nodup kind)
  refine ⟨hids, ?_, fun _ _ => ⟨rfl, rfl⟩⟩
  refine List.Nodup.map_on ?_ hids.of_map
  rintro ⟨id, v⟩ he ⟨id', v'⟩ he' rfl
  have h1 := (hinv id v).mp (mem_entries.mp he).2
  have h2 := (hinv id' v).mp (mem_entries.mp he').2
  rw [Option.some.inj (h1.symm.trans h2)]

/-- The values are filed under their ids again. -/
theorem byValue_restored {kind : QueryKindId} (ho : o.Lists db)
    (hinv : (db.interned kind).Inverse) :
    write (fun _ => none) ((db.internedRecords o kind).map fun e => (e.2, some e.1)) =
      (db.interned kind).byValue := by
  have hkeys : ((db.internedRecords o kind).map fun e => (e.2, some e.1)).map Prod.fst =
      (db.internedRecords o kind).map Prod.snd := by
    rw [List.map_map]
    rfl
  funext v
  cases hv : (db.interned kind).byValue v with
  | none =>
    refine write_of_not_mem ?_
    rw [hkeys]
    intro hmem
    obtain ⟨⟨n, v'⟩, he, rfl⟩ := List.mem_map.mp hmem
    rw [(hinv n v').mp (mem_entries.mp he).2] at hv
    cases hv
  | some n =>
    refine write_of_mem (hkeys ▸ (newTo_internedRecords ho hinv).2.1) ?_
    have hn := (hinv n v).mpr hv
    exact List.mem_map.mpr ⟨(n, v), mem_entries.mpr ⟨ho.ids kind n v hn, hn⟩, rfl⟩

/-- **The records of an ingredient restore it**, if it was cleared before. -/
theorem restored_loadRecords (hC : C.RoundTrip) (ho : o.Lists db)
    (hinv : ∀ kind, (db.interned kind).Inverse) (hsave : db.saveRecords o C i = .ok records)
    (hblank : PartBlank i db₁) :
    (db₁.loadRecords C i records).1 = .ok () ∧
      PartRestored i db (db₁.loadRecords C i records).2 := by
  unfold Database.saveRecords at hsave
  unfold PartBlank at hblank
  unfold PartRestored Database.loadRecords
  cases hi : i.sectionType with
  | input =>
    simp only [hi] at hsave hblank ⊢
    rw [loadInputs_encoded hC (mapM_eq_ok_iff.mp hsave)]
    refine ⟨rfl, fun key => ?_⟩
    refine (write_entries (dynKey_injective i.kind) (ho.inputs_nodup i.kind)
      (fun key e he => ho.inputs ⟨i.kind, key⟩ e he) some db₁.inputs key).trans ?_
    rw [hblank key]
    cases db.inputs ⟨i.kind, key⟩ <;> rfl
  | derived =>
    simp only [hi] at hsave hblank ⊢
    rw [loadDerived_encoded hC (mapM_eq_ok_iff.mp hsave)]
    refine ⟨rfl, fun key => ?_⟩
    refine (write_entries (dynKey_injective i.kind) (ho.cells_nodup i.kind)
      (fun key r hr => ho.cells ⟨i.kind, key⟩ r hr) .newReady db₁.cells key).trans ?_
    rw [hblank key]
    unfold ErasedCell.restored
    cases (db.cells ⟨i.kind, key⟩).state.record <;> rfl
  | interned =>
    simp only [hi] at hsave ⊢
    have hnew := newTo_internedRecords ho (hinv i.kind)
    obtain ⟨t, hload, hbyId, hbyValue, -, hids⟩ :=
      loadInterned_encoded hC (mapM_eq_ok_iff.mp hsave) 0 hnew
    rw [hload]
    simp only [Function.update_self]
    have hback : t.byId = (db.interned i.kind).byId := by
      funext n
      rw [hbyId]
      refine (write_entries (j := id) (fun _ _ h => h) (ho.ids_nodup i.kind)
        (fun n v hv => ho.ids i.kind n v hv) some _ n).trans ?_
      cases (db.interned i.kind).byId n <;> rfl
    refine ⟨trivial, hback, ?_, ?_⟩
    · rw [hbyValue]
      exact byValue_restored ho (hinv i.kind)
    · intro n v hv
      rw [hback] at hv
      exact hids (n, v) (mem_entries.mpr ⟨ho.ids i.kind n v hv, hv⟩)

end part

/-! ## 3. A list of ingredients of distinct kinds -/

section sections

variable {C : Codec V} {o : Order} {ingredients : List PersistableIngredient} {db : Database V}

/-- The kinds of a list that passes the check are distinct, and new. -/
theorem ensureUniqueKinds_ok_iff {seen : List QueryKindId} :
    ensureUniqueKinds seen ingredients = .ok () ↔
      (ingredients.map (·.kind)).Nodup ∧ ∀ i ∈ ingredients, i.kind ∉ seen := by
  induction ingredients generalizing seen with
  | nil => exact ⟨fun _ => ⟨.nil, fun _ h => absurd h List.not_mem_nil⟩, fun _ => rfl⟩
  | cons i rest ih =>
    unfold ensureUniqueKinds
    split
    · next hseen =>
      exact iff_of_false nofun fun h => h.2 i (List.mem_cons_self ..) hseen
    · next hseen =>
      rw [ih, List.map_cons, List.nodup_cons, List.forall_mem_cons]
      constructor
      · rintro ⟨hnd, hnew⟩
        refine ⟨⟨fun hmem => ?_, hnd⟩, hseen, fun j hj hmem => ?_⟩
        · obtain ⟨j, hj, heq⟩ := List.mem_map.mp hmem
          exact hnew j hj (List.mem_cons.mpr (.inl heq))
        · exact hnew j hj (List.mem_cons_of_mem _ hmem)
      · rintro ⟨⟨hi, hnd⟩, -, hnew⟩
        refine ⟨hnd, fun j hj hmem => ?_⟩
        rcases List.mem_cons.mp hmem with heq | hmem
        · exact hi (List.mem_map.mpr ⟨j, hj, heq⟩)
        · exact hnew j hj hmem

/-- An ingredient is found under its kind. -/
theorem find_kind (hnd : (ingredients.map (·.kind)).Nodup) {i : PersistableIngredient}
    (hi : i ∈ ingredients) : ingredients.find? (·.kind = i.kind) = some i := by
  induction ingredients with
  | nil => cases hi
  | cons j rest ih =>
    obtain ⟨hj, hrest⟩ := List.nodup_cons.mp hnd
    rcases List.mem_cons.mp hi with rfl | hi
    · simp
    · have hne : j.kind ≠ i.kind := fun heq => hj (List.mem_map.mpr ⟨i, hi, heq.symm⟩)
      rw [List.find?_cons_of_neg (by simpa using hne)]
      exact ih hrest hi

/-- The section of an ingredient that was saved. -/
theorem saveSection_ok {i : PersistableIngredient} {s : Section}
    (h : db.saveSection o C i = .ok s) :
    ∃ records, db.saveRecords o C i = .ok records ∧
      ⟨i.kind, i.kindName, i.sectionType, records⟩ = s := by
  unfold Database.saveSection at h
  cases hr : db.saveRecords o C i with
  | error e => rw [hr] at h; cases h
  | ok records => rw [hr] at h; exact ⟨records, rfl, Except.ok.inj h⟩

variable [DecidableEq V]

/-- **Every section restores its ingredient**, by induction along the sections: those still to
come find their ingredients cleared, and change nothing of those that were restored. -/
theorem restored_loadSections (hC : C.RoundTrip) (ho : o.Lists db)
    (hinv : ∀ kind, (db.interned kind).Inverse)
    (hnd : (ingredients.map (·.kind)).Nodup) {rest : List PersistableIngredient}
    {sections : List Section} (hsub : ∀ i ∈ rest, i ∈ ingredients)
    (hnd' : (rest.map (·.kind)).Nodup)
    (hsave : List.Forall₂ (fun i s => db.saveSection o C i = .ok s) rest sections)
    (db₁ : Database V) (hblank : ∀ i ∈ rest, PartBlank i db₁) :
    (db₁.loadSections C ingredients sections).1 = .ok () ∧
      (∀ i ∈ rest, PartRestored i db (db₁.loadSections C ingredients sections).2) ∧
        (∀ kind, kind ∉ rest.map (·.kind) →
          Database.Agree kind db₁ (db₁.loadSections C ingredients sections).2) ∧
          ∀ q, (∀ i ∈ rest, i.sectionType = .derived → i.kind ≠ q.kind) →
            (db₁.loadSections C ingredients sections).2.cells q = db₁.cells q := by
  induction hsave generalizing db₁ with
  | nil =>
    exact ⟨rfl, fun _ h => absurd h List.not_mem_nil, fun kind _ => .refl kind db₁,
      fun _ _ => rfl⟩
  | @cons i s rest sections hs _ ih =>
    obtain ⟨hi, hrest⟩ := List.nodup_cons.mp hnd'
    obtain ⟨records, hrecords, rfl⟩ := saveSection_ok hs
    obtain ⟨hok, hpart⟩ := restored_loadRecords hC ho hinv hrecords
      (hblank i (List.mem_cons_self ..))
    have hframe := agree_loadRecords db₁ hC hrecords
    have hload : db₁.loadSections C ingredients
        (⟨i.kind, i.kindName, i.sectionType, records⟩ :: sections) =
          (db₁.loadRecords C i records).2.loadSections C ingredients sections := by
      generalize hres : db₁.loadRecords C i records = res at hok
      obtain ⟨result, db₂⟩ := res
      obtain rfl : result = .ok () := hok
      simp [Database.loadSections, find_kind hnd (hsub i (List.mem_cons_self ..)), hres]
    rw [hload]
    have hother : ∀ j ∈ rest, j.kind ≠ i.kind :=
      fun j hj heq => hi (List.mem_map.mpr ⟨j, hj, heq⟩)
    obtain ⟨hok', hparts, hframe', hcells⟩ := ih
      (fun j hj => hsub j (List.mem_cons_of_mem _ hj)) hrest _ fun j hj =>
        (hblank j (List.mem_cons_of_mem _ hj)).of_agree (hframe j.kind (hother j hj))
    refine ⟨hok', fun j hj => ?_, fun kind hkind => ?_, fun q hq => ?_⟩
    · rcases List.mem_cons.mp hj with rfl | hj
      · exact hpart.of_agree (hframe' j.kind hi)
      · exact hparts j hj
    · rw [List.map_cons, List.mem_cons, not_or] at hkind
      exact (hframe kind hkind.1).trans (hframe' kind hkind.2)
    · rw [hcells q fun j hj => hq j (List.mem_cons_of_mem _ hj)]
      exact cells_loadRecords hC hrecords (hq i (List.mem_cons_self ..))

omit [DecidableEq V] in
/-- Clearing an ingredient leaves nothing in it, and nothing new in any other. -/
theorem partBlank_clear {i j : PersistableIngredient} {db₁ : Database V}
    (h : i = j ∨ PartBlank i db₁) : PartBlank i (db₁.clear j) := by
  unfold PartBlank at h ⊢
  unfold Database.clear
  rcases h with rfl | h
  · cases hi : i.sectionType <;> simp
  · cases hi : i.sectionType with
    | input =>
      simp only [hi] at h
      cases j.sectionType with
      | input =>
        intro key
        show (if i.kind = j.kind then none else db₁.inputs ⟨i.kind, key⟩) = none
        rw [h key, ite_self]
      | derived => exact h
      | interned => exact h
    | derived =>
      simp only [hi] at h
      cases j.sectionType with
      | input => exact h
      | derived =>
        intro key
        show (if i.kind = j.kind then .new else db₁.cells ⟨i.kind, key⟩) = .new
        rw [h key, ite_self]
      | interned => exact h
    | interned => trivial

omit [DecidableEq V] in
/-- A listed ingredient holds nothing once the list was cleared. -/
theorem partBlank_cleared {i : PersistableIngredient} (hi : i ∈ ingredients)
    (db₁ : Database V) : PartBlank i (db₁.cleared ingredients) := by
  have hfold : ∀ (rest : List PersistableIngredient) (db₁ : Database V),
      i ∈ rest ∨ PartBlank i db₁ → PartBlank i (rest.foldl Database.clear db₁) := by
    intro rest
    induction rest with
    | nil => exact fun db₁ h => h.resolve_left List.not_mem_nil
    | cons j rest ih =>
      intro db₁ h
      refine ih (db₁.clear j) ?_
      rcases h with h | h
      · rcases List.mem_cons.mp h with rfl | h
        · exact .inr (partBlank_clear (.inl rfl))
        · exact .inl h
      · exact .inr (partBlank_clear (.inr h))
  exact hfold ingredients _ (.inl hi)

end sections

/-! ## 4. The dependency graph -/

namespace Runtime

/-- The reverse graph is the inverse of the forward graph. -/
def Inverse (r : Runtime) : Prop :=
  ∀ d q, r.reverseDeps d q = true ↔ ∃ deps, r.depsByQuery q = some deps ∧ d ∈ deps

theorem inverse_clearDependencyGraph (r : Runtime) : r.clearDependencyGraph.Inverse :=
  fun _ _ => ⟨nofun, by rintro ⟨deps, h, -⟩; cases h⟩

/-- **Replacing the dependencies of a query keeps the graphs inverse.** -/
theorem Inverse.updateQueryDeps {r : Runtime} (h : r.Inverse) (q : DynKey) (deps : List Dep) :
    (r.updateQueryDeps q deps).Inverse := by
  intro d q'
  rcases eq_or_ne q' q with rfl | hne
  · -- a dependency that was filed before is on the old list
    have hold : r.reverseDeps d q' = true → d ∈ (r.depsByQuery q').getD [] := by
      intro hd
      obtain ⟨old, hq, hmem⟩ := (h d q').mp hd
      rw [hq]
      exact hmem
    simp only [Runtime.updateQueryDeps, if_true, Function.update_self, Option.some.injEq,
      exists_eq_left']
    by_cases hd : d ∈ deps
    · simp [hd]
    · by_cases hd' : d ∈ (r.depsByQuery q').getD []
      · simp [hd, hd']
      · simpa [hd, hd'] using fun hrev => hd' (hold hrev)
  · simpa [Runtime.updateQueryDeps, hne] using h d q'

end Runtime

namespace Database

/-- The dependencies of the cell of `q` are filed. -/
def Filed (db : Database V) (q : DynKey) : Prop :=
  db.runtime.depsByQuery q = (db.cells q).state.record.map (·.deps)

/-- The graphs are inverse, and nothing is filed but the dependencies of ready cells. -/
structure Traced (db : Database V) : Prop where
  inverse : db.runtime.Inverse
  filed : ∀ q, db.runtime.depsByQuery q ≠ none → db.Filed q

/-- The second database has the graph of the first one, or more of it. -/
structure Extends (db db' : Database V) : Prop where
  inputs : db'.inputs = db.inputs
  cells : db'.cells = db.cells
  interned : db'.interned = db.interned
  runtime : db'.runtime.clearDependencyGraph = db.runtime.clearDependencyGraph
  traced : db.Traced → db'.Traced
  filed : ∀ q, db.Filed q → db'.Filed q

theorem Extends.refl (db : Database V) : db.Extends db := ⟨rfl, rfl, rfl, rfl, id, fun _ => id⟩

theorem Extends.revision {db db' : Database V} (h : db.Extends db') :
    db'.runtime.currentRevision = db.runtime.currentRevision := by
  have heq := congrArg Runtime.currentRevision h.runtime
  exact heq

theorem Extends.trans {db db' db'' : Database V} (h : db.Extends db') (h' : db'.Extends db'') :
    db.Extends db'' :=
  ⟨h'.inputs.trans h.inputs, h'.cells.trans h.cells, h'.interned.trans h.interned,
    h'.runtime.trans h.runtime, fun ht => h'.traced (h.traced ht),
    fun q hq => h'.filed q (h.filed q hq)⟩

variable {kind : QueryKindId}

/-- Filing one cell. -/
theorem extends_restoreCell (kind : QueryKindId) (db : Database V) (key : Key) :
    db.Extends (db.restoreCell kind key) ∧
      (db.Traced → (db.restoreCell kind key).Filed ⟨kind, key⟩) := by
  unfold restoreCell
  cases hr : (db.cells ⟨kind, key⟩).state.record with
  | none =>
    refine ⟨.refl db, fun ht => ?_⟩
    by_contra hno
    have hne : db.runtime.depsByQuery ⟨kind, key⟩ ≠ none := by
      intro hnone
      exact hno (by rw [Filed, hnone, hr]; rfl)
    exact hno (ht.filed _ hne)
  | some r =>
    have hself : Filed { db with runtime := db.runtime.updateQueryDeps ⟨kind, key⟩ r.deps }
        ⟨kind, key⟩ := by
      simp [Filed, Runtime.updateQueryDeps, hr]
    have hother : ∀ q, q ≠ ⟨kind, key⟩ →
        (Filed { db with runtime := db.runtime.updateQueryDeps ⟨kind, key⟩ r.deps } q ↔
          db.Filed q) := by
      intro q hq
      simp [Filed, Runtime.updateQueryDeps, Function.update_of_ne hq]
    refine ⟨⟨rfl, rfl, rfl, rfl, fun ht => ⟨ht.inverse.updateQueryDeps _ _, fun q hq => ?_⟩,
      fun q hq => ?_⟩, fun _ => hself⟩
    · rcases eq_or_ne q ⟨kind, key⟩ with rfl | hne
      · exact hself
      · refine (hother q hne).mpr (ht.filed q ?_)
        simpa [Runtime.updateQueryDeps, Function.update_of_ne hne] using hq
    · rcases eq_or_ne q ⟨kind, key⟩ with rfl | hne
      · exact hself
      · exact (hother q hne).mpr hq

/-- Filing the listed cells of one kind. -/
theorem extends_restoreCells (kind : QueryKindId) (keys : List Key) (db : Database V) :
    db.Extends (keys.foldl (restoreCell kind) db) ∧
      (db.Traced → ∀ key ∈ keys,
        (keys.foldl (restoreCell kind) db).Filed ⟨kind, key⟩) := by
  induction keys generalizing db with
  | nil => exact ⟨.refl db, fun _ _ h => absurd h List.not_mem_nil⟩
  | cons key keys ih =>
    obtain ⟨hext, hself⟩ := extends_restoreCell kind db key
    obtain ⟨hrest, hfiled⟩ := ih (db.restoreCell kind key)
    refine ⟨hext.trans hrest, fun ht key' hkey' => ?_⟩
    rcases List.mem_cons.mp hkey' with rfl | hkey'
    · exact hrest.filed _ (hself ht)
    · exact hfiled (hext.traced ht) key' hkey'

/-- **The graph is rebuilt from the cells of the listed ingredients.** -/
theorem extends_restoreRuntimeState [DecidableEq V] {o : Order}
    (ingredients : List PersistableIngredient) (db : Database V) :
    db.Extends (ingredients.foldl (restoreRuntimeState o) db) ∧
      (db.Traced → ∀ i ∈ ingredients, i.sectionType = .derived → ∀ key ∈ o.cells i.kind,
        (ingredients.foldl (restoreRuntimeState o) db).Filed ⟨i.kind, key⟩) := by
  induction ingredients generalizing db with
  | nil => exact ⟨.refl db, fun _ _ h => absurd h List.not_mem_nil⟩
  | cons i rest ih =>
    have hhead : db.Extends (restoreRuntimeState o db i) ∧
        (db.Traced → i.sectionType = .derived → ∀ key ∈ o.cells i.kind,
          (restoreRuntimeState o db i).Filed ⟨i.kind, key⟩) := by
      unfold restoreRuntimeState
      cases i.sectionType with
      | derived =>
        obtain ⟨hext, hfiled⟩ := extends_restoreCells i.kind (o.cells i.kind) db
        exact ⟨hext, fun ht _ => hfiled ht⟩
      | input => exact ⟨.refl db, fun _ => nofun⟩
      | interned => exact ⟨.refl db, fun _ => nofun⟩
    obtain ⟨hrest, hfiled⟩ := ih (restoreRuntimeState o db i)
    refine ⟨hhead.1.trans hrest, fun ht j hj htype key hkey => ?_⟩
    rcases List.mem_cons.mp hj with rfl | hj
    · exact hrest.filed _ (hhead.2 ht htype key hkey)
    · exact hfiled (hhead.1.traced ht) j hj htype key hkey

end Database

/-! ## 5. The interning tables of a run -/

/-- A new value under a new id. -/
theorem InternedIngredient.Inverse.insert [DecidableEq V] {t : InternedIngredient V}
    (h : t.Inverse) {id : Nat} {v : V} (hid : t.byId id = none) (hv : t.byValue v = none) :
    (t.insert id v).Inverse := by
  intro id' v'
  simp only [InternedIngredient.insert, Function.update_apply]
  constructor
  · intro hid'
    split at hid'
    · next heq =>
      cases hid'
      rw [if_pos rfl, heq]
    · have hne : v' ≠ v := by
        rintro rfl
        rw [(h id' v').mp hid'] at hv
        cases hv
      rw [if_neg hne]
      exact (h id' v').mp hid'
  · intro hv'
    split at hv'
    · next heq =>
      cases hv'
      rw [if_pos rfl, heq]
    · have hne : id' ≠ id := by
        rintro rfl
        rw [(h id' v').mpr hv'] at hid
        cases hid
      rw [if_neg hne]
      exact (h id' v').mpr hv'

theorem InternedIngredient.Inverse.intern [DecidableEq V] {t : InternedIngredient V}
    (h : t.Inverse) (hfresh : t.Fresh) (v : V) : (t.intern v).1.Inverse := by
  unfold InternedIngredient.intern
  cases hv : t.byValue v with
  | some id => exact h
  | none => exact h.insert (hfresh _ (Nat.le_refl _)) hv

section run

variable [DecidableEq V] {S : Schema V} {c c' : Config V}

omit [DecidableEq V] in
theorem interned_cancelGuards (w : World V) (stack : List (Activation V)) :
    (cancelGuards w stack).interned = w.interned := by
  induction stack generalizing w with
  | nil => rfl
  | cons a stack ih =>
    unfold cancelGuards
    cases a.guard with
    | none => exact ih w
    | some g => exact ih _

/-- **A step changes the interning tables by interning a value, or not at all.** -/
theorem interned_step {l : Label V} (h : step S c l = some c') :
    c'.world.interned =
      match l with
      | .intern kind v => (c.world.intern kind v).interned
      | _ => c.world.interned := by
  cases l with
  | step t => exact (taskStep_of_step h).fixed.interned
  | intern kind v => cases h; rfl
  | spawn view key want =>
    simp only [step] at h
    split at h <;> cases h
    rfl
  | drop t =>
    simp only [step, dropTask] at h
    split at h
    · cases h
    · split at h <;> cases h
      exact interned_cancelGuards ..
  | mutate view key value =>
    simp only [step] at h
    split at h <;> cases h
    show (mutateWorld c.world view key value).interned = _
    unfold mutateWorld
    split <;> rfl
  | «begin» view key value =>
    simp only [step] at h
    split at h <;> cases h
    rfl
  | advance n =>
    simp only [step] at h
    split at h
    · cases h
    · split at h
      · cases h
      · next hw =>
        cases h
        show World.interned _ = _
        unfold stepMutator at hw
        split at hw
        · split at hw <;> cases hw <;> rfl
        all_goals cases hw
        all_goals rfl
  | bump view =>
    simp only [step] at h
    split at h <;> cases h
    rfl
  | snapshot => cases h; rfl

/-- **A run keeps the two directions of a table inverse.** -/
theorem inverse_steps {ok : Config V → Label V → Config V → Prop} {ls : List (Label V)}
    (hls : Trans.Steps (step S) ok c ls c')
    (h : ∀ kind, (c.world.interned kind).Inverse ∧ (c.world.interned kind).Fresh)
    (kind : QueryKindId) : (c'.world.interned kind).Inverse ∧ (c'.world.interned kind).Fresh := by
  refine hls.invariant (I := fun m => ∀ kind, (m.world.interned kind).Inverse ∧
    (m.world.interned kind).Fresh) h (fun m l m' hm hl _ kind => ?_) kind
  rw [interned_step hl]
  cases l with
  | intern kind' v =>
    obtain ⟨hi, hf⟩ := hm kind
    rcases eq_or_ne kind kind' with rfl | hne
    · simp only [World.intern, Function.update_self]
      exact ⟨hi.intern hf v, hf.intern v⟩
    · simp only [World.intern, Function.update_of_ne hne]
      exact ⟨hi, hf⟩
  | _ => exact hm kind

theorem inverse_of_run {fuel : Nat} {ops : List (Op V)} (h : runOps S fuel init ops = some c)
    (kind : QueryKindId) : (c.world.interned kind).Inverse := by
  obtain ⟨ls, hls, -⟩ := runOps_steps (P := fun _ => True) h idle_init fun _ _ => trivial
  exact (inverse_steps hls (fun _ => ⟨fun _ _ => ⟨nofun, nofun⟩,
    InternedIngredient.fresh_empty⟩) kind).1

end run

/-! ## 6. The round trip -/

/-- A fresh database. -/
def Database.new (id : RuntimeId) : Database V :=
  { runtime := Runtime.new id
    inputs := fun _ => none
    cells := fun _ => .new
    interned := fun _ => .empty }

/-- `db'` has been restored to what `db` was: the revision, what the listed ingredients hold, and
the dependency graph. -/
structure Reloaded (ingredients : List PersistableIngredient) (db db' : Database V) : Prop where
  revision : db'.runtime.currentRevision = db.runtime.currentRevision
  parts : ∀ i ∈ ingredients, PartRestored i db db'
  forward : ∀ q, db'.Filed q
  reverse : db'.runtime.Inverse

section load

variable [DecidableEq V] {C : Codec V} {o o' : Order} {ingredients : List PersistableIngredient}
  {db db₁ : Database V} {bytes : Bytes}

omit [DecidableEq V] in
/-- What a successful save has written. -/
theorem saved_file (hsave : db.saveCache o C ingredients = .ok bytes) :
    (ingredients.map (·.kind)).Nodup ∧ ∃ sections,
      List.Forall₂ (fun i s => db.saveSection o C i = .ok s) ingredients sections ∧
        C.encodeFile ⟨formatVersion, db.runtime.currentRevision, sections⟩ = .ok bytes := by
  unfold Database.saveCache at hsave
  cases hkinds : ensureUniqueKinds [] ingredients with
  | error e => rw [hkinds] at hsave; cases hsave
  | ok u =>
    cases hsections : ingredients.mapM (db.saveSection o C) with
    | error e => rw [hkinds, hsections] at hsave; cases hsave
    | ok sections =>
      rw [hkinds, hsections] at hsave
      exact ⟨(ensureUniqueKinds_ok_iff.mp hkinds).1, sections, mapM_eq_ok_iff.mp hsections, hsave⟩

omit [DecidableEq V] in
/-- A saved file is opened. -/
theorem openCache_saved (hC : C.RoundTrip) (hnd : (ingredients.map (·.kind)).Nodup)
    {rev : Revision} {sections : List Section}
    (h : C.encodeFile ⟨formatVersion, rev, sections⟩ = .ok bytes) :
    openCache C ingredients none (.read bytes) = .ok (some ⟨formatVersion, rev, sections⟩) := by
  have hkinds : ensureUniqueKinds [] ingredients = .ok () :=
    ensureUniqueKinds_ok_iff.mpr ⟨hnd, fun _ _ => List.not_mem_nil⟩
  unfold openCache
  rw [hkinds]
  simp only [bind, Except.bind, pure, Except.pure, hC.file h]
  rfl

omit [DecidableEq V] in
/-- Clearing a list leaves a cell as it was, or new. -/
theorem cells_cleared (ingredients : List PersistableIngredient) (db₁ : Database V) (q : DynKey) :
    (db₁.cleared ingredients).cells q = .new ∨
      (db₁.cleared ingredients).cells q = db₁.cells q := by
  have hclear : ∀ (db₂ : Database V) (i : PersistableIngredient),
      (db₂.clear i).cells q = .new ∨ (db₂.clear i).cells q = db₂.cells q := by
    intro db₂ i
    unfold Database.clear
    cases i.sectionType with
    | derived =>
      show (if q.kind = i.kind then .new else db₂.cells q) = .new ∨
        (if q.kind = i.kind then .new else db₂.cells q) = db₂.cells q
      split
      · exact .inl rfl
      · exact .inr rfl
    | input => exact .inr rfl
    | interned => exact .inr rfl
  have hfold : ∀ (rest : List PersistableIngredient) (db₂ : Database V),
      (rest.foldl Database.clear db₂).cells q = .new ∨
        (rest.foldl Database.clear db₂).cells q = db₂.cells q := by
    intro rest
    induction rest with
    | nil => exact fun db₂ => .inr rfl
    | cons i rest ih =>
      intro db₂
      rcases ih (db₂.clear i) with h | h
      · exact .inl h
      · exact (hclear db₂ i).imp h.trans h.trans
  exact hfold ingredients _

/-- **A saved database is restored by loading it**, into a database without ready cells of other
kinds. -/
theorem loadCache_saved (hC : C.RoundTrip) (ho : o.Lists db) (ho' : o'.Lists db)
    (hinv : ∀ kind, (db.interned kind).Inverse)
    (hsave : db.saveCache o C ingredients = .ok bytes)
    (hother : ∀ q, (∀ i ∈ ingredients, i.sectionType = .derived → i.kind ≠ q.kind) →
      (db₁.cells q).state.record = none) :
    ∃ db', db₁.loadCache C o' ingredients (.read bytes) = (.ok true, db') ∧
      Reloaded ingredients db db' := by
  obtain ⟨hnd, sections, hsections, hencode⟩ := saved_file hsave
  have hopen := openCache_saved hC hnd hencode
  obtain ⟨hok, hparts, -, hcells⟩ := restored_loadSections hC ho hinv hnd (fun _ h => h) hnd
    hsections (db₁.cleared ingredients) fun i hi => partBlank_cleared hi db₁
  have hrun := Database.runtime_loadSections C ingredients (db₁.cleared ingredients) sections
  rw [Database.runtime_cleared] at hrun
  generalize hload : (db₁.cleared ingredients).loadSections C ingredients sections = res at *
  obtain ⟨result, db₂⟩ := res
  obtain rfl : result = .ok () := hok
  refine ⟨db₂.restored o' ingredients db.runtime.currentRevision, ?_, ?_⟩
  · simp [Database.loadCache, Database.loadCacheWithOptions, Database.loadCacheInner,
      CacheLoadOptions.default, hopen, hload]
  -- the graph starts empty, and is rebuilt from the cells that were loaded
  have htraced : db₂.Traced := by
    have hnone : ∀ q, db₂.runtime.depsByQuery q = none := by
      intro q
      rw [hrun]
      rfl
    refine ⟨?_, fun q hq => absurd (hnone q) hq⟩
    rw [hrun]
    exact Runtime.inverse_clearDependencyGraph _
  obtain ⟨hext, hfiled⟩ := Database.extends_restoreRuntimeState (o := o') ingredients db₂
  have htraced' := hext.traced htraced
  constructor
  · rfl
  · intro i hi
    refine (hparts i hi).of_agree ⟨fun key => ?_, fun key => ?_, ?_⟩
    · exact congrFun hext.inputs _
    · exact congrFun hext.cells _
    · exact congrFun hext.interned _
  · intro q
    by_contra hno
    have hnone : (ingredients.foldl (Database.restoreRuntimeState o') db₂).runtime.depsByQuery q =
        none := by
      by_contra hne
      exact hno (htraced'.filed q hne)
    -- so the cell is ready, and its ingredient is not listed
    have hnolist : ∀ i ∈ ingredients, i.sectionType = .derived → i.kind ≠ q.kind := by
      rintro i hi htype hkind
      have hpart := hparts i hi
      unfold PartRestored at hpart
      rw [htype] at hpart
      have hcell := hpart q.key
      obtain ⟨kind, key⟩ := q
      obtain rfl : i.kind = kind := hkind
      cases hr : (db.cells ⟨i.kind, key⟩).state.record with
      | some r => exact hno (hfiled htraced i hi htype key (ho'.cells _ r hr))
      | none =>
        refine hno ?_
        show _ = Option.map _ ((ingredients.foldl (Database.restoreRuntimeState o') db₂).cells
          ⟨i.kind, key⟩).state.record
        rw [congrFun hext.cells, hcell, ErasedCell.record_restored, hr]
        exact hnone
    refine hno ?_
    show _ = Option.map _ ((ingredients.foldl (Database.restoreRuntimeState o') db₂).cells
      q).state.record
    rw [congrFun hext.cells, hcells q hnolist]
    refine hnone.trans ?_
    rcases cells_cleared ingredients db₁ q with hnew | hold
    · rw [hnew]
      rfl
    · rw [hold, hother q hnolist]
      rfl
  · exact htraced'.inverse

/-- A saved database is restored by loading it into a fresh one. -/
theorem loadCache_new (hC : C.RoundTrip) (ho : o.Lists db) (ho' : o'.Lists db)
    (hinv : ∀ kind, (db.interned kind).Inverse)
    (hsave : db.saveCache o C ingredients = .ok bytes) (id : RuntimeId) :
    ∃ db', (Database.new id).loadCache C o' ingredients (.read bytes) = (.ok true, db') ∧
      Reloaded ingredients db db' :=
  loadCache_saved hC ho ho' hinv hsave fun _ _ => rfl

/-- **The cache round trip.**  The cache that was saved in any state of a run, loaded into a fresh
database, restores the revision, the listed ingredients and the dependency graph. -/
theorem cache_round_trip {S : Schema V} {fuel : Nat} {ops : List (Op V)} {c : Config V}
    (hC : C.RoundTrip) (h : runOps S fuel init ops = some c)
    (ho : o.Lists c.world.database) (ho' : o'.Lists c.world.database)
    (hsave : c.world.database.saveCache o C ingredients = .ok bytes) (id : RuntimeId) :
    ∃ db', (Database.new id).loadCache C o' ingredients (.read bytes) = (.ok true, db') ∧
      Reloaded ingredients c.world.database db' :=
  loadCache_new hC ho ho' (inverse_of_run h) hsave id

end load

namespace RoundTrip

/-- An input, a derived and an interned ingredient, and a schema for them. -/
def ingredients : List PersistableIngredient :=
  [⟨0, "items", .input⟩, ⟨1, "totals", .derived⟩, ⟨2, "names", .interned⟩]

def schema : Schema Nat where
  sectionType kind := if kind = 0 then .input else if kind = 1 then .derived else .interned
  registered _ := true
  compute _ _ := .done (.ok 0)
  evicted _ := false
  decodeId _ := none

def item : DynKey := ⟨0, []⟩

/-- A slot is set, and a value is interned. -/
def program : List (Op Nat) := [.mutate 0 item (some 1), .intern 2 7]

def file : CacheFile :=
  ⟨formatVersion, 1, [⟨0, "items", .input, [[]]⟩, ⟨1, "totals", .derived, []⟩,
    ⟨2, "names", .interned, [[]]⟩]⟩

def codec : Codec Nat := .ofTable ⟨[file], [([], ⟨some 1, 1⟩)], [], [(0, 7)]⟩

def order : Order := ⟨fun _ => [[]], fun _ => [], fun _ => [0]⟩

/-- A database with nothing but the slot and the interned value. -/
structure Plain (db : Database Nat) : Prop where
  inputs : ∀ k, k ≠ item → db.inputs k = none
  cells : ∀ k, db.cells k = .new
  interned : db.interned = Function.update (fun _ : QueryKindId =>
    (.empty : InternedIngredient Nat)) 2 (InternedIngredient.empty.intern 7).1

theorem Plain.lists {db : Database Nat} (h : Plain db) : order.Lists db where
  inputs_nodup _ := List.nodup_singleton _
  inputs k e he := by
    by_cases hk : k = item
    · rw [hk]
      exact List.mem_singleton.mpr rfl
    · rw [h.inputs k hk] at he
      cases he
  cells_nodup _ := .nil
  cells k r hr := by
    rw [h.cells] at hr
    cases hr
  ids_nodup _ := List.nodup_singleton _
  ids kind id v hv := by
    rw [h.interned, Function.update_apply] at hv
    split at hv
    · simp only [InternedIngredient.intern, InternedIngredient.empty, Function.update_apply] at hv
      split at hv
      · next hid => exact List.mem_singleton.mpr hid
      · cases hv
    · cases hv

/-- The program leaves such a database. -/
theorem plain_of_program {c : Config Nat} (h : runOps schema 0 init program = some c) :
    Plain c.world.database := by
  constructor
  · intro k hk
    cases h
    exact Function.update_of_ne hk ..
  · cases h
    exact fun _ => rfl
  · cases h
    rfl

end RoundTrip

/-- A `set` or `remove` changes one slot. -/
theorem World.database_mutateWorld [DecidableEq V] (w : World V) (k : DynKey) (v : Option V)
    (q : DynKey) :
    ((mutateWorld w 0 k v).database.inputs q = w.database.inputs q ∨ q = k) ∧
      (mutateWorld w 0 k v).database.cells q = w.database.cells q ∧
        (mutateWorld w 0 k v).interned = w.interned := by
  unfold mutateWorld
  split
  · exact ⟨.inl rfl, rfl, rfl⟩
  · refine ⟨?_, ?_, rfl⟩
    · show ((World.storeInput _ 0 k v _).inputs 0) q = w.inputs 0 q ∨ q = k
      rw [World.inputs_storeInput, if_pos rfl]
      rcases eq_or_ne q k with rfl | hq
      · exact .inr rfl
      · refine .inl ?_
        simp [Inputs.store, hq]
    · show (World.storeInput _ 0 k v _).cell 0 q = w.cell 0 q
      simp

namespace Computed

open RoundTrip (item ingredients)

/-- A slot that is removed again. -/
def gone : DynKey := ⟨0, [1]⟩

def total : DynKey := ⟨1, []⟩

/-- The total is the value of the item. -/
def body (_ : DynKey) : Query Nat :=
  .read item fun
    | .ok (some v) => .done (.ok v)
    | .ok none => .done (.error (.cache "no value"))
    | .error e => .done (.error e)

def schema : Schema Nat := { RoundTrip.schema with compute := fun _ => body }

/-- Slots are set and removed, and a value is interned. -/
def changes : List (Op Nat) :=
  [.mutate 0 item (some 1), .mutate 0 gone (some 5), .mutate 0 gone none, .intern 2 7]

/-- What is filed of the total. -/
def record : DerivedRecord Nat := ⟨1, 3, 3, [item]⟩

def file : CacheFile :=
  ⟨formatVersion, 3, [⟨0, "items", .input, [[], [0]]⟩, ⟨1, "totals", .derived, [[]]⟩,
    ⟨2, "names", .interned, [[]]⟩]⟩

def codec : Codec Nat :=
  .ofTable ⟨[file], [([], ⟨some 1, 1⟩), ([1], ⟨none, 3⟩)], [([], record)], [(0, 7)]⟩

def order : Order := ⟨fun _ => [[], [1]], fun _ => [[]], fun _ => [0]⟩

/-- After the changes, and an access to the total, there are the two slots, the cell of the total
and the interned value. -/
theorem lists_of_changes {c c' : Config Nat} (h : runOps schema 0 init changes = some c)
    (hframe : c.world.Frame total c'.world) : order.Lists c'.world.database := by
  have hworld : c.world = (mutateWorld (mutateWorld (mutateWorld World.init 0 item (some 1)) 0 gone
      (some 5)) 0 gone none).intern 2 7 := by
    cases h
    rfl
  have hdb := fun (w : World Nat) k v q => World.database_mutateWorld w k v q
  have hintern : ∀ w : World Nat, (w.intern 2 7).database.cells = w.database.cells := fun _ => rfl
  constructor
  · exact fun _ => show [[], [1]].Nodup by decide
  · intro k e he
    have hsame : ∀ {w k' v}, (mutateWorld w 0 k' v).database.inputs k = some e →
        w.database.inputs k = some e ∨ k = k' := by
      intro w k' v hk
      rcases (hdb w k' v k).1 with heq | heq
      · exact .inl (heq ▸ hk)
      · exact .inr heq
    have hold : c.world.inputs 0 k = some e := congrFun hframe.inputs k ▸ he
    rw [hworld] at hold
    rcases hsame hold with h₁ | rfl
    · rcases hsame h₁ with h₂ | rfl
      · rcases hsame h₂ with h₃ | rfl
        · cases h₃
        · exact List.mem_cons_self ..
      · exact .tail _ (.head _)
    · exact .tail _ (.head _)
  · exact fun _ => List.nodup_singleton _
  · intro k r hr
    by_cases hk : k = total
    · rw [hk]
      exact List.mem_singleton.mpr rfl
    · have hnew : c'.world.database.cells k = World.init.database.cells k := by
        refine (hframe.cells k hk).trans ?_
        show c.world.database.cells k = _
        rw [hworld, hintern, (hdb _ _ _ k).2.1, (hdb _ _ _ k).2.1, (hdb _ _ _ k).2.1]
      rw [hnew] at hr
      cases hr
  · exact fun _ => List.nodup_singleton _
  · intro kind id v hv
    have htables : c.world.interned = Function.update (fun _ : QueryKindId =>
        (.empty : InternedIngredient Nat)) 2 (InternedIngredient.empty.intern 7).1 := by
      rw [hworld]
      simp only [World.intern, World.interned_mutateWorld]
      rfl
    have hold : (c.world.interned kind).byId id = some v := hframe.interned ▸ hv
    rw [htables, Function.update_apply] at hold
    split at hold
    · simp only [InternedIngredient.intern, InternedIngredient.empty, Function.update_apply] at hold
      split at hold
      · next hid => exact List.mem_singleton.mpr hid
      · cases hold
    · cases hold

end Computed

open RoundTrip (item ingredients)
open Computed in
/-- A total that was computed from a slot, a slot that is gone, and an interned value are
restored. -/
theorem slot_and_value_reloaded :
    ∃ c db', runOps schema 17 init (changes ++ [.access 0 total true]) = some c ∧
      (Database.new 5).loadCache codec order ingredients (.read []) = (.ok true, db') ∧
        Reloaded ingredients c.world.database db' ∧
          (db'.cells total).state.record = some record ∧ db'.inputs gone = some ⟨none, 3⟩ ∧
            (db'.interned 2).byId 0 = some 7 := by
  have hrun : (runOps schema 17 init changes).any fun c =>
      (accessOn schema total 16 c).any fun c' =>
        c'.world.database.saveCache order codec ingredients = .ok [] ∧
          (c'.world.database.cells total).state.record = some record ∧
            c'.world.database.inputs gone = some ⟨none, 3⟩ ∧
              (c'.world.database.interned 2).byId 0 = some 7 := by decide +kernel
  obtain ⟨c, hc, hrun⟩ := (Option.any_eq_true ..).mp hrun
  obtain ⟨c', hc', hlast⟩ := (Option.any_eq_true ..).mp hrun
  obtain ⟨hsave, hrecord, hgone, hname⟩ := of_decide_eq_true hlast
  obtain ⟨haccess, hframe⟩ := runOp_of_accessOn hc'
  have hall : runOps schema 17 init (changes ++ [.access 0 total true]) = some c' := by
    rw [runOps_append, hc]
    simp only [Option.bind_some, runOps, haccess]
  have ho := lists_of_changes hc hframe
  obtain ⟨db', hload, hreloaded⟩ :=
    cache_round_trip (Codec.roundTrip_ofTable _) hall ho ho hsave 5
  have hcells := hreloaded.parts ⟨1, "totals", .derived⟩ (.tail _ (.head _)) []
  have hinputs := hreloaded.parts ⟨0, "items", .input⟩ (.head _) [1]
  have hids := (hreloaded.parts ⟨2, "names", .interned⟩ (.tail _ (.tail _ (.head _)))).1
  refine ⟨c', db', hall, hload, hreloaded, ?_, hinputs.trans hgone, ?_⟩
  · exact (congrArg (·.state.record) hcells).trans ((ErasedCell.record_restored _).trans hrecord)
  · exact (congrFun hids 0).trans hname

end Picante

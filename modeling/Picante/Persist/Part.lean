/-
# What limits leave of a database

A save within limits drops records.  Those that are left are all the records of a smaller database,
of the slots, cells and interned values that they came from (`Database.part`).  So a save within
limits is a whole save of a part of the database (`saved_part`), and what holds of whole saves holds
of it.

What slots and interned values there are of a database that was saved whole can be read off the
file: those that have a record there (`inputs_iff_fileHas`, `byId_iff_fileNames`).
-/
import Picante.Persist.Limits
import Picante.Persist.Recovery

namespace Picante

open Tables

variable {V : Type}

/-! ## 1. Parts of a database -/

/-- No key and no id comes up twice. -/
structure Order.Nodup (o : Order) : Prop where
  inputs : ∀ kind, (o.inputs kind).Nodup
  cells : ∀ kind, (o.cells kind).Nodup
  ids : ∀ kind, (o.ids kind).Nodup

theorem Order.Lists.nodup {o : Order} {db : Database V} (h : o.Lists db) : o.Nodup :=
  ⟨h.inputs_nodup, h.cells_nodup, h.ids_nodup⟩

/-- The order with that of another one for a kind. -/
def Order.put (o o' : Order) (kind : QueryKindId) : Order where
  inputs := Function.update o.inputs kind (o'.inputs kind)
  cells := Function.update o.cells kind (o'.cells kind)
  ids := Function.update o.ids kind (o'.ids kind)

theorem Order.Nodup.put {o o' : Order} (h : o.Nodup) (h' : o'.Nodup) (kind : QueryKindId) :
    (o.put o' kind).Nodup := by
  have hupdate : ∀ {A : Type} {lists lists' : QueryKindId → List A}, (∀ k, (lists k).Nodup) →
      (∀ k, (lists' k).Nodup) → ∀ k, (Function.update lists kind (lists' kind) k).Nodup := by
    intro A lists lists' hlists hlists' k
    rw [Function.update_apply]
    split
    · exact hlists' kind
    · exact hlists k
  exact ⟨hupdate h.inputs h'.inputs, hupdate h.cells h'.cells, hupdate h.ids h'.ids⟩

/-- The slots, cells and interned values of a database that an order goes through. -/
def Database.part (db : Database V) (o : Order) : Database V :=
  { db with
    inputs := fun k => if k.key ∈ o.inputs k.kind then db.inputs k else none
    cells := fun k => if k.key ∈ o.cells k.kind then db.cells k else .new
    interned := fun kind =>
      { db.interned kind with
        byValue := fun v => ((db.interned kind).byValue v).filter fun id => id ∈ o.ids kind
        byId := fun id => if id ∈ o.ids kind then (db.interned kind).byId id else none } }

namespace Database

variable {db : Database V} {o o' : Order} {k : DynKey} {kind : QueryKindId}

theorem inputs_part (db : Database V) (o : Order) (k : DynKey) :
    (db.part o).inputs k = if k.key ∈ o.inputs k.kind then db.inputs k else none := rfl

/-- A slot of the part is one of the database. -/
theorem inputs_of_part {e : InputEntry V} (h : (db.part o).inputs k = some e) :
    k.key ∈ o.inputs k.kind ∧ db.inputs k = some e := by
  rw [inputs_part] at h
  split at h
  · next hk => exact ⟨hk, h⟩
  · cases h

/-- A cell of the part is one of the database, or new. -/
theorem cells_part (db : Database V) (o : Order) (k : DynKey) :
    (db.part o).cells k = db.cells k ∧ k.key ∈ o.cells k.kind ∨ (db.part o).cells k = .new := by
  unfold part
  simp only
  split
  · next hk => exact .inl ⟨rfl, hk⟩
  · exact .inr rfl

theorem cells_of_part {r : DerivedRecord V} (h : ((db.part o).cells k).state.record = some r) :
    k.key ∈ o.cells k.kind ∧ (db.cells k).state.record = some r := by
  rcases cells_part db o k with ⟨heq, hk⟩ | heq
  · exact ⟨hk, heq ▸ h⟩
  · rw [heq] at h
    cases h

/-- An interned value of the part is one of the database. -/
theorem byId_part {id : Nat} {v : V} : ((db.part o).interned kind).byId id = some v ↔
    id ∈ o.ids kind ∧ (db.interned kind).byId id = some v := by
  unfold part
  simp only
  split
  · next hid => rw [and_iff_right hid]
  · next hid => exact iff_of_false nofun fun h => hid h.1

theorem inverse_part (h : (db.interned kind).Inverse) : ((db.part o).interned kind).Inverse := by
  intro id v
  rw [byId_part, h id v]
  unfold part
  simp only [Option.filter_eq_some_iff, decide_eq_true_eq]
  exact and_comm

/-- **The order goes through all of the part.** -/
theorem lists_part (h : o.Nodup) : o.Lists (db.part o) where
  inputs_nodup := h.inputs
  inputs _ _ he := (inputs_of_part he).1
  cells_nodup := h.cells
  cells _ _ hr := (cells_of_part hr).1
  ids_nodup := h.ids
  ids _ _ _ hv := (byId_part.mp hv).1

/-- And so does an order that goes through all of the database. -/
theorem lists_part_of_lists (h : o'.Lists db) : o'.Lists (db.part o) where
  inputs_nodup := h.inputs_nodup
  inputs k e he := h.inputs k e (inputs_of_part he).2
  cells_nodup := h.cells_nodup
  cells k r hr := h.cells k r (cells_of_part hr).2
  ids_nodup := h.ids_nodup
  ids kind id v hv := h.ids kind id v (byId_part.mp hv).2

end Database

/-! ## 2. Saving a part -/

section save

variable {C : Codec V} {db : Database V} {o : Order} {i : PersistableIngredient}

/-- What is saved of an ingredient depends on the order of its kind only. -/
theorem saveSection_part_put (db : Database V) (C : Codec V) (o o' : Order) {kind : QueryKindId}
    (hne : i.kind ≠ kind) :
    (db.part (o.put o' kind)).saveSection (o.put o' kind) C i =
      (db.part o).saveSection o C i := by
  unfold Database.saveSection Database.saveRecords Database.inputRecords Database.derivedRecords
    Database.internedRecords Database.part Order.put
  simp only [Function.update_of_ne hne]

theorem saveSection_part_put_self (db : Database V) (C : Codec V) (o o' : Order) :
    (db.part (o.put o' i.kind)).saveSection (o.put o' i.kind) C i =
      (db.part o').saveSection o' C i := by
  unfold Database.saveSection Database.saveRecords Database.inputRecords Database.derivedRecords
    Database.internedRecords Database.part Order.put
  simp only [Function.update_self]

/-- **Records that are left of an ingredient** are those of a part. -/
theorem saveRecords_part {records records' : List Bytes} (ho : o.Nodup)
    (h : db.saveRecords o C i = .ok records) (hcut : records'.Subperm records) :
    ∃ o', o'.Nodup ∧ (db.part o').saveRecords o' C i = .ok records' := by
  unfold Database.saveRecords at h ⊢
  cases hi : i.sectionType with
  | input =>
    simp only [hi] at h ⊢
    obtain ⟨keys, hnd, hkeys⟩ := entries_cut (ho.inputs i.kind) h hcut
    refine ⟨⟨fun _ => keys, fun _ => [], fun _ => []⟩,
      ⟨fun _ => hnd, fun _ => .nil, fun _ => .nil⟩, hkeys _ fun key hkey => if_pos hkey⟩
  | derived =>
    simp only [hi] at h ⊢
    obtain ⟨keys, hnd, hkeys⟩ := entries_cut (ho.cells i.kind) h hcut
    refine ⟨⟨fun _ => [], fun _ => keys, fun _ => []⟩,
      ⟨fun _ => .nil, fun _ => hnd, fun _ => .nil⟩, hkeys _ fun key hkey => ?_⟩
    exact congrArg (fun cell : ErasedCell V => cell.state.record) (if_pos hkey)
  | interned =>
    simp only [hi] at h ⊢
    obtain ⟨ids, hnd, hids⟩ := entries_cut (ho.ids i.kind) h hcut
    exact ⟨⟨fun _ => [], fun _ => [], fun _ => ids⟩,
      ⟨fun _ => .nil, fun _ => .nil, fun _ => hnd⟩, hids _ fun id hid => if_pos hid⟩

/-- **Sections that are left** are those of a part, which has all there is of other kinds. -/
theorem sections_part {ingredients : List PersistableIngredient} {sections cut : List Section}
    (ho : o.Nodup) (hnd : (ingredients.map (·.kind)).Nodup)
    (hsave : List.Forall₂ (fun i s => db.saveSection o C i = .ok s) ingredients sections)
    (hcut : List.Forall₂ Section.Cut sections cut) :
    ∃ o', o'.Nodup ∧
      List.Forall₂ (fun i s => (db.part o').saveSection o' C i = .ok s) ingredients cut := by
  induction hsave generalizing cut with
  | nil =>
    cases hcut
    exact ⟨o, ho, .nil⟩
  | @cons i s rest sections hs _ ih =>
    cases hcut with
    | @cons _ s' _ cut hc hrest =>
      obtain ⟨hi, hnd⟩ := List.nodup_cons.mp hnd
      obtain ⟨o₁, ho₁, hsections⟩ := ih hnd hrest
      obtain ⟨records, hrecords, rfl⟩ := saveSection_ok hs
      obtain ⟨o₂, ho₂, hleft⟩ := saveRecords_part ho hrecords hc.records
      refine ⟨o₁.put o₂ i.kind, ho₁.put ho₂ i.kind, .cons ?_ ?_⟩
      · rw [saveSection_part_put_self, Database.saveSection, hleft]
        obtain ⟨kindId, kindName, sectionType, records'⟩ := s'
        obtain ⟨rfl, rfl, rfl, -⟩ := hc
        rfl
      · have hother : ∀ j ∈ rest, j.kind ≠ i.kind :=
          fun j hj heq => hi (List.mem_map.mpr ⟨j, hj, heq⟩)
        refine ((List.forall₂_and_left _ _).mpr ⟨hother, hsections⟩).imp fun j s hj => ?_
        rw [saveSection_part_put db C o₁ o₂ hj.1]
        exact hj.2

variable {ingredients : List PersistableIngredient} {options : CacheSaveOptions} {bytes : Bytes}

/-- **A save within limits is a whole save of a part of the database.** -/
theorem saved_part (ho : o.Nodup)
    (h : db.saveCacheWithOptions o C ingredients options = .ok bytes) :
    ∃ o', o'.Nodup ∧ (db.part o').saveCache o' C ingredients = .ok bytes := by
  obtain ⟨hnd, sections, ⟨version, rev, cut⟩, hsections, ⟨rfl, rfl, hcut⟩, hencode⟩ := saved_cut h
  obtain ⟨o', ho', hpart⟩ := sections_part ho hnd hsections hcut
  have hkinds : ensureUniqueKinds [] ingredients = .ok () :=
    ensureUniqueKinds_ok_iff.mpr ⟨hnd, fun _ _ => List.not_mem_nil⟩
  refine ⟨o', ho', ?_⟩
  unfold Database.saveCache
  rw [hkinds, mapM_eq_ok_iff.mpr hpart]
  exact hencode

/-! ## 3. The slots of a part -/

/-- Among the sections there is a record of the slot `k` with the entry `e`. -/
def HasRecord (C : Codec V) (sections : List Section) (k : DynKey) (e : InputEntry V) : Prop :=
  ∃ sec ∈ sections, sec.kindId = k.kind ∧
    ∃ bytes ∈ sec.records, C.encodeInput k.kind k.key e = .ok bytes

/-- A slot of a listed ingredient has its record in the file. -/
theorem hasRecord_of_saved {sections : List Section} {k : DynKey} {e : InputEntry V}
    (hsections : List.Forall₂ (fun i s => db.saveSection o C i = .ok s) ingredients sections)
    (hlisted : ListsInput ingredients k.kind) (he : db.inputs k = some e)
    (ho : k.key ∈ o.inputs k.kind) : HasRecord C sections k e := by
  obtain ⟨i, hi, hkind, htype⟩ := hlisted
  obtain ⟨sec, hsec, hsave⟩ := exists_of_forall₂ hsections hi
  unfold Database.saveSection at hsave
  cases hrecords : db.saveRecords o C i with
  | error err => rw [hrecords] at hsave; cases hsave
  | ok records =>
    rw [hrecords] at hsave
    cases hsave
    unfold Database.saveRecords at hrecords
    rw [htype, hkind] at hrecords
    obtain ⟨bytes, hbytes, henc⟩ := exists_of_forall₂ (mapM_eq_ok_iff.mp hrecords)
      (mem_entries.mpr ⟨ho, he⟩ : (k.key, e) ∈ db.inputRecords o k.kind)
    exact ⟨_, hsec, hkind, bytes, hbytes, henc⟩

/-- And nothing else has. -/
theorem inputs_of_hasRecord (hC : C.RoundTrip) {sections : List Section} {k : DynKey}
    {e : InputEntry V} (hnd : (ingredients.map (·.kind)).Nodup)
    (hsections : List.Forall₂ (fun i s => db.saveSection o C i = .ok s) ingredients sections)
    (hlisted : ListsInput ingredients k.kind) (h : HasRecord C sections k e) :
    db.inputs k = some e := by
  obtain ⟨i, hi, hkind, htype⟩ := hlisted
  obtain ⟨sec, hsec, hsecKind, bytes, hbytes, hencode⟩ := h
  obtain ⟨j, hj, hsave⟩ := exists_of_forall₂ hsections.flip hsec
  obtain ⟨records, hrecords, rfl⟩ := saveSection_ok hsave
  -- the section is that of the ingredient
  have hsame : j.kind = i.kind := hsecKind.trans hkind.symm
  have hfind := (find_kind hnd hj).symm.trans (hsame ▸ find_kind hnd hi)
  obtain rfl := Option.some.inj hfind
  unfold Database.saveRecords at hrecords
  simp only [htype] at hrecords
  obtain ⟨⟨key, e'⟩, hentry, hencode'⟩ :=
    exists_of_forall₂ (mapM_eq_ok_iff.mp hrecords).flip hbytes
  have heq := (hC.input (hkind ▸ hencode')).symm.trans (hC.input hencode)
  cases heq
  have hslot := (mem_entries.mp hentry).2
  rw [hkind] at hslot
  exact hslot

/-- The file has a record of the slot `k` with the entry `e`. -/
def FileHas (C : Codec V) (bytes : Bytes) (k : DynKey) (e : InputEntry V) : Prop :=
  ∃ cache, C.decodeFile bytes = .ok cache ∧ HasRecord C cache.sections k e

/-- **The slots of a database that was saved whole** are those that the file has. -/
theorem inputs_iff_fileHas (hC : C.RoundTrip) (ho : o.Lists db)
    (hsave : db.saveCache o C ingredients = .ok bytes) {k : DynKey} {e : InputEntry V}
    (hlisted : ListsInput ingredients k.kind) : db.inputs k = some e ↔ FileHas C bytes k e := by
  obtain ⟨hnd, sections, hsections, hencode⟩ := saved_file hsave
  have hdecode := hC.file hencode
  constructor
  · intro he
    exact ⟨_, hdecode, hasRecord_of_saved hsections hlisted he (ho.inputs k e he)⟩
  · rintro ⟨cache, hcache, hrecord⟩
    obtain rfl := Except.ok.inj (hdecode.symm.trans hcache)
    exact inputs_of_hasRecord hC hnd hsections hlisted hrecord

/-! ## 4. And its interned values -/

/-- The file has a record of the interned value `v` with the id. -/
def FileNames (C : Codec V) (bytes : Bytes) (kind : QueryKindId) (id : Nat) (v : V) : Prop :=
  ∃ cache, C.decodeFile bytes = .ok cache ∧ ∃ sec ∈ cache.sections, sec.kindId = kind ∧
    ∃ record ∈ sec.records, C.encodeInterned kind id v = .ok record

/-- **The interned values of a database that was saved whole** are those that the file has. -/
theorem byId_iff_fileNames (hC : C.RoundTrip) (ho : o.Lists db)
    (hsave : db.saveCache o C ingredients = .ok bytes) (hi : i ∈ ingredients)
    (htype : i.sectionType = .interned) {id : Nat} {v : V} :
    (db.interned i.kind).byId id = some v ↔ FileNames C bytes i.kind id v := by
  obtain ⟨hnd, sections, hsections, hencode⟩ := saved_file hsave
  have hdecode := hC.file hencode
  constructor
  · intro hv
    obtain ⟨sec, hsec, hsaved⟩ := exists_of_forall₂ hsections hi
    obtain ⟨records, hrecords, rfl⟩ := saveSection_ok hsaved
    unfold Database.saveRecords at hrecords
    simp only [htype] at hrecords
    obtain ⟨record, hrecord, henc⟩ := exists_of_forall₂ (mapM_eq_ok_iff.mp hrecords)
      (mem_entries.mpr ⟨ho.ids i.kind id v hv, hv⟩ : (id, v) ∈ db.internedRecords o i.kind)
    exact ⟨_, hdecode, _, hsec, rfl, record, hrecord, henc⟩
  · rintro ⟨cache, hcache, sec, hsec, hkind, record, hrecord, henc⟩
    obtain rfl := Except.ok.inj (hdecode.symm.trans hcache)
    obtain ⟨j, hj, hsaved⟩ := exists_of_forall₂ hsections.flip hsec
    obtain ⟨records, hrecords, rfl⟩ := saveSection_ok hsaved
    have hsame : j.kind = i.kind := hkind
    obtain rfl := Option.some.inj ((find_kind hnd hj).symm.trans (hsame ▸ find_kind hnd hi))
    unfold Database.saveRecords at hrecords
    simp only [htype] at hrecords
    obtain ⟨⟨id', v'⟩, hentry, henc'⟩ :=
      exists_of_forall₂ (mapM_eq_ok_iff.mp hrecords).flip hrecord
    have heq := (hC.interned henc').symm.trans (hC.interned henc)
    cases heq
    exact (mem_entries.mp hentry).2

end save

end Picante

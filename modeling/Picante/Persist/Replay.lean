/-
# What was appended is replayed

A log is the list of the changes that were appended to it (`Logged`): every appended entry is the
encoding of one.  Appending adds the changes of the database (`logged_appendToWal`), and replaying
applies all of them in order and leaves the revision at the highest (`replayWal_logged`), unless an
entry is longer than the reader accepts.
-/
import Picante.Persist.Wal
import Picante.Persist.RoundTrip

namespace Picante

open Framing Tables

variable {V : Type}

/-! ## 1. Changes -/

/-- A change: the slot or the cell of a key, as it was when it was appended. -/
inductive Change (V : Type) where
  | slot (key : DynKey) (e : InputEntry V)
  | cell (key : DynKey) (r : DerivedRecord V)

namespace Change

/-- The key that changed. -/
def key : Change V → DynKey
  | .slot k _ | .cell k _ => k

/-- When it changed. -/
def revision : Change V → Revision
  | .slot _ e => e.changedAt
  | .cell _ r => r.changedAt

/-- The section it belongs to. -/
def sectionType : Change V → SectionType
  | .slot .. => .input
  | .cell .. => .derived

/-- Carries the change out. -/
def apply (db : Database V) : Change V → Database V
  | .slot k e => { db with inputs := Function.update db.inputs k (some e) }
  | .cell k r => { db with cells := Function.update db.cells k (.newReady r) }

/-- What is written to a slot. -/
def slotWrite : Change V → Option (DynKey × Option (InputEntry V))
  | .slot k e => some (k, some e)
  | .cell .. => none

/-- What is written to a cell. -/
def cellWrite : Change V → Option (DynKey × ErasedCell V)
  | .slot .. => none
  | .cell k r => some (k, .newReady r)

/-- The change as its ingredient hands it over. -/
def encoded (C : WalCodec V) : Change V → PicanteResult EncodedChange
  | .slot k e => C.encodeSlot k.kind k.key e
  | .cell k r => C.encodeCell k.kind k.key r

/-- `payload` is the entry of the change. -/
def Encodes (C : WalCodec V) (c : Change V) (payload : Bytes) : Prop :=
  ∃ change, c.encoded C = .ok change ∧
    C.encodeEntry (EncodedChange.entry c.key.kind change) = .ok payload

/-- The reader accepts the length of the entry. -/
def Fits (C : WalCodec V) (c : Change V) : Prop :=
  ∀ payload, c.Encodes C payload → payload.length ≤ maxEntryLen

/-- The change belongs to one of the ingredients. -/
def Listed (ingredients : List PersistableIngredient) (c : Change V) : Prop :=
  ∃ i ∈ ingredients, i.kind = c.key.kind ∧ i.sectionType = c.sectionType

end Change

/-- Carries the changes out in order. -/
def Database.applyChanges (db : Database V) (cs : List (Change V)) : Database V :=
  cs.foldl Change.apply db

/-- The highest revision of the changes, or `m` if none is above it. -/
def Change.highest (m : Revision) (cs : List (Change V)) : Revision :=
  cs.foldl (fun m c => max m c.revision) m

theorem Change.le_highest (m : Revision) (cs : List (Change V)) :
    m ≤ highest m cs ∧ ∀ c ∈ cs, c.revision ≤ highest m cs := by
  induction cs generalizing m with
  | nil => exact ⟨Nat.le_refl m, nofun⟩
  | cons c cs ih =>
    obtain ⟨hm, hcs⟩ := ih (max m c.revision)
    refine ⟨Nat.le_trans (Nat.le_max_left ..) hm, fun c' hc' => ?_⟩
    rcases List.mem_cons.mp hc' with rfl | hc'
    · exact Nat.le_trans (Nat.le_max_right ..) hm
    · exact hcs c' hc'

theorem Change.highest_le {m r : Revision} {cs : List (Change V)} (hm : m ≤ r)
    (hcs : ∀ c ∈ cs, c.revision ≤ r) : highest m cs ≤ r := by
  induction cs generalizing m with
  | nil => exact hm
  | cons c cs ih =>
    exact ih (Nat.max_le.mpr ⟨hm, hcs c (List.mem_cons_self ..)⟩)
      fun c' hc' => hcs c' (List.mem_cons_of_mem _ hc')

section applyChanges

variable (db : Database V) (cs : List (Change V))

theorem inputs_applyChanges :
    (db.applyChanges cs).inputs = write db.inputs (cs.filterMap Change.slotWrite) := by
  induction cs generalizing db with
  | nil => rfl
  | cons c cs ih => cases c <;> exact ih _

theorem cells_applyChanges :
    (db.applyChanges cs).cells = write db.cells (cs.filterMap Change.cellWrite) := by
  induction cs generalizing db with
  | nil => rfl
  | cons c cs ih => cases c <;> exact ih _

theorem rest_applyChanges :
    (db.applyChanges cs).runtime = db.runtime ∧ (db.applyChanges cs).interned = db.interned := by
  induction cs generalizing db with
  | nil => exact ⟨rfl, rfl⟩
  | cons c cs ih => cases c <;> exact ih _

theorem mem_slotWrites {k : DynKey} {e : Option (InputEntry V)} :
    (k, e) ∈ cs.filterMap Change.slotWrite ↔ ∃ e', e = some e' ∧ .slot k e' ∈ cs := by
  simp only [List.mem_filterMap]
  constructor
  · rintro ⟨c, hc, heq⟩
    cases c with
    | slot k' e' => cases heq; exact ⟨e', rfl, hc⟩
    | cell k' r => cases heq
  · rintro ⟨e', rfl, hc⟩
    exact ⟨_, hc, rfl⟩

end applyChanges

/-- The changes of an ingredient after a revision. -/
def Database.changes (db : Database V) (o : Order) (since : Revision)
    (i : PersistableIngredient) : List (Change V) :=
  match i.sectionType with
  | .input => (db.changedInputs o i.kind since).map fun s => .slot ⟨i.kind, s.1⟩ s.2
  | .derived => (db.changedCells o i.kind since).map fun s => .cell ⟨i.kind, s.1⟩ s.2
  | .interned => []

/-- A slot that changed after the revision is among the changes of its ingredient, and nothing
else of its kind is. -/
theorem slot_mem_changes {db : Database V} {o : Order} (ho : o.Lists db) {since : Revision}
    {i : PersistableIngredient} {k : DynKey} {e : InputEntry V} :
    .slot k e ∈ db.changes o since i ↔
      i.sectionType = .input ∧ i.kind = k.kind ∧ db.inputs k = some e ∧ since < e.changedAt := by
  unfold Database.changes
  cases hi : i.sectionType with
  | derived => simp
  | interned => simp
  | input =>
    simp only [List.mem_map, Database.changedInputs, List.mem_filter, decide_eq_true_eq, true_and]
    constructor
    · rintro ⟨⟨key, e'⟩, ⟨hmem, hlt⟩, heq⟩
      cases heq
      exact ⟨rfl, (mem_entries.mp hmem).2, hlt⟩
    · rintro ⟨hkind, he, hlt⟩
      obtain ⟨kind, key⟩ := k
      obtain rfl : i.kind = kind := hkind
      exact ⟨(key, e), ⟨mem_entries.mpr ⟨ho.inputs _ e he, he⟩, hlt⟩, rfl⟩

/-- A ready cell that changed after the revision is among the changes of its ingredient. -/
theorem cell_mem_changes {db : Database V} {o : Order} (ho : o.Lists db) {since : Revision}
    {i : PersistableIngredient} {k : DynKey} {r : DerivedRecord V} :
    .cell k r ∈ db.changes o since i ↔
      i.sectionType = .derived ∧ i.kind = k.kind ∧ (db.cells k).state.record = some r ∧
        since < r.changedAt := by
  unfold Database.changes
  cases hi : i.sectionType with
  | input => simp
  | interned => simp
  | derived =>
    simp only [List.mem_map, Database.changedCells, List.mem_filter, decide_eq_true_eq, true_and]
    constructor
    · rintro ⟨⟨key, r'⟩, ⟨hmem, hlt⟩, heq⟩
      cases heq
      exact ⟨rfl, (mem_entries.mp hmem).2, hlt⟩
    · rintro ⟨hkind, hr, hlt⟩
      obtain ⟨kind, key⟩ := k
      obtain rfl : i.kind = kind := hkind
      exact ⟨(key, r), ⟨mem_entries.mpr ⟨ho.cells _ r hr, hr⟩, hlt⟩, rfl⟩

/-- What an ingredient hands over are its changes, encoded. -/
theorem encoded_changes {db : Database V} {o : Order} {C : WalCodec V}
    {i : PersistableIngredient} {since : Revision} {changes : List EncodedChange}
    (h : db.saveIncrementalRecords o C i since = .ok changes) :
    List.Forall₂ (fun c change => c.key.kind = i.kind ∧ c.encoded C = .ok change)
      (db.changes o since i) changes := by
  unfold Database.saveIncrementalRecords at h
  unfold Database.changes
  cases hi : i.sectionType with
  | input =>
    simp only [hi] at h ⊢
    rw [List.forall₂_map_left_iff]
    exact (mapM_eq_ok_iff.mp h).imp fun _ _ he => ⟨rfl, he⟩
  | derived =>
    simp only [hi] at h ⊢
    rw [List.forall₂_map_left_iff]
    exact (mapM_eq_ok_iff.mp h).imp fun _ _ he => ⟨rfl, he⟩
  | interned =>
    simp only [hi] at h ⊢
    cases h
    exact .nil

/-! ## 2. Logs -/

/-- The log holds these changes. -/
structure Logged (C : WalCodec V) (wal : WalWriter) (cs : List (Change V)) : Prop where
  written : ∃ header payloads, C.encodeHeader ⟨walFormatVersion, wal.baseRevision⟩ = .ok header ∧
    List.Forall₂ (Change.Encodes C) cs payloads ∧
      wal.written = walMagic ++ (frame walLengthBytes header ++
        (payloads.map (frame walLengthBytes)).flatten)

section writing

variable {C : WalCodec V} {wal wal' : WalWriter} {cs : List (Change V)}

/-- A new log is empty. -/
theorem logged_create {base : Revision} {threshold : Nat}
    (h : WalWriter.create C base threshold = .ok wal) :
    Logged C wal [] ∧ wal.baseRevision = base := by
  unfold WalWriter.create at h
  cases hheader : C.encodeHeader ⟨walFormatVersion, base⟩ with
  | error e => rw [hheader] at h; cases h
  | ok header =>
    rw [hheader] at h
    cases h
    exact ⟨⟨header, [], hheader, .nil, by simp [WalWriter.written]⟩, rfl⟩

theorem Logged.flush (h : Logged C wal cs) : Logged C wal.flush cs := by
  obtain ⟨header, payloads, hheader, hps, hwritten⟩ := h
  exact ⟨header, payloads, hheader, hps, by rw [WalWriter.written_flush, hwritten]⟩

/-- What appending an entry writes. -/
theorem written_append {entry : WalEntry} (h : wal.append C entry = .ok wal') :
    ∃ payload, C.encodeEntry entry = .ok payload ∧
      wal'.written = wal.written ++ frame walLengthBytes payload ∧
        wal'.baseRevision = wal.baseRevision := by
  unfold WalWriter.append at h
  cases hentry : C.encodeEntry entry with
  | error e => rw [hentry] at h; cases h
  | ok payload =>
    rw [hentry] at h
    refine ⟨payload, rfl, ?_⟩
    obtain rfl := Except.ok.inj h
    split
    · simp [WalWriter.written, WalWriter.flush]
    · simp [WalWriter.written]

/-- Appending the entry of a change. -/
theorem Logged.append (h : Logged C wal cs) {c : Change V} {change : EncodedChange}
    (hc : c.encoded C = .ok change)
    (happend : wal.append C (EncodedChange.entry c.key.kind change) = .ok wal') :
    Logged C wal' (cs ++ [c]) ∧ wal'.baseRevision = wal.baseRevision := by
  obtain ⟨header, payloads, hheader, hps, hwritten⟩ := h
  obtain ⟨payload, hpayload, hwritten', hbase⟩ := written_append happend
  refine ⟨⟨header, payloads ++ [payload], hbase ▸ hheader, ?_, ?_⟩, hbase⟩
  · exact List.rel_append hps (.cons ⟨change, hc, hpayload⟩ .nil)
  · simp [hwritten', hwritten]

/-- Appending the changes of an ingredient: all of them, or, on an error, the first few. -/
theorem logged_appendChanges {kind : QueryKindId} {changes : List EncodedChange}
    {cs' : List (Change V)}
    (hcs' : List.Forall₂ (fun c change => c.key.kind = kind ∧ c.encoded C = .ok change) cs'
      changes) (h : Logged C wal cs) {n : Nat} {result : PicanteResult Nat}
    (happend : appendChanges C kind n wal changes = (result, wal')) :
    ∃ done, done <+: cs' ∧ Logged C wal' (cs ++ done) ∧ wal'.baseRevision = wal.baseRevision ∧
      ∀ m, result = .ok m → done = cs' := by
  induction hcs' generalizing cs n wal with
  | nil =>
    cases happend
    exact ⟨[], List.prefix_rfl, by simpa using h, rfl, fun _ _ => rfl⟩
  | @cons c change cs' changes hc _ ih =>
    obtain ⟨rfl, hc⟩ := hc
    unfold appendChanges at happend
    cases hstep : wal.append C (EncodedChange.entry c.key.kind change) with
    | error e =>
      rw [hstep] at happend
      cases happend
      exact ⟨[], List.nil_prefix, by simpa using h, rfl, nofun⟩
    | ok wal₁ =>
      simp only [hstep] at happend
      obtain ⟨h₁, hbase₁⟩ := h.append hc hstep
      obtain ⟨done, hprefix, hdone, hbase, hall⟩ := ih h₁ happend
      refine ⟨c :: done, List.prefix_cons_inj c |>.mpr hprefix, ?_, hbase.trans hbase₁, ?_⟩
      · simpa using hdone
      · exact fun m hm => by rw [hall m hm]

/-- **What `appendToWal` appends**: the changes of the listed ingredients since the base revision,
all of them unless there is an error. -/
theorem logged_appendIngredients {db : Database V} {o : Order}
    {ingredients : List PersistableIngredient} (h : Logged C wal cs) {n : Nat}
    {result : PicanteResult Nat}
    (happend : db.appendIngredients o C n wal ingredients = (result, wal')) :
    ∃ done, (∀ c ∈ done, ∃ i ∈ ingredients, c ∈ db.changes o wal.baseRevision i) ∧
      Logged C wal' (cs ++ done) ∧ wal'.baseRevision = wal.baseRevision ∧
        ∀ m, result = .ok m → ∀ i ∈ ingredients, ∀ c ∈ db.changes o wal.baseRevision i,
          c ∈ done := by
  induction ingredients generalizing cs n wal with
  | nil =>
    cases happend
    exact ⟨[], nofun, by simpa using h, rfl, fun _ _ => nofun⟩
  | cons i rest ih =>
    have first : ∀ {done : List (Change V)}, done <+: db.changes o wal.baseRevision i →
        ∀ c ∈ done, ∃ j ∈ i :: rest, c ∈ db.changes o wal.baseRevision j :=
      fun hprefix c hc => ⟨i, List.mem_cons_self .., hprefix.subset hc⟩
    unfold Database.appendIngredients at happend
    cases hsave : db.saveIncrementalRecords o C i wal.baseRevision with
    | error e =>
      rw [hsave] at happend
      cases happend
      exact ⟨[], nofun, by simpa using h, rfl, nofun⟩
    | ok changes =>
      simp only [hsave] at happend
      generalize hone : appendChanges C i.kind n wal changes = res at happend
      obtain ⟨one, wal₁⟩ := res
      obtain ⟨done, hprefix, hdone, hbase₁, hall⟩ :=
        logged_appendChanges (encoded_changes hsave) h hone
      cases one with
      | error e =>
        cases happend
        exact ⟨done, first hprefix, hdone, hbase₁, nofun⟩
      | ok m =>
        obtain ⟨more, hmem, hmore, hbase, hrest⟩ := ih hdone happend
        rw [hbase₁] at hmem hrest
        refine ⟨done ++ more, fun c hc => ?_, by simpa using hmore, hbase.trans hbase₁, ?_⟩
        · rcases List.mem_append.mp hc with hc | hc
          · exact first hprefix c hc
          · obtain ⟨j, hj, hcj⟩ := hmem c hc
            exact ⟨j, List.mem_cons_of_mem _ hj, hcj⟩
        · intro m' hm' j hj c hc
          rcases List.mem_cons.mp hj with rfl | hj
          · exact List.mem_append_left _ (hall m rfl ▸ hc)
          · exact List.mem_append_right _ (hrest m' hm' j hj c hc)

end writing

section reading

variable [DecidableEq V] {C : WalCodec V} {ingredients : List PersistableIngredient}
  {db : Database V} {cs : List (Change V)}

omit [DecidableEq V] in
/-- The header of a log is read back, whatever follows it. -/
theorem openWal_header (hC : C.RoundTrip) {base : Revision} {header : Bytes}
    (hheader : C.encodeHeader ⟨walFormatVersion, base⟩ = .ok header) (rest : Bytes) :
    C.openWal (walMagic ++ (frame walLengthBytes header ++ rest)) =
      .ok (⟨walFormatVersion, base⟩, rest) := by
  have hframe := unframe_frame (k := walLengthBytes) (by decide) (hC.header_length hheader) rest
  unfold WalCodec.openWal
  rw [takeExact_append rfl]
  simp only [ne_eq, not_true_eq_false, if_false, hframe, hC.header hheader]
  rfl

omit [DecidableEq V] in
/-- A log is opened, and its entries are what follows. -/
theorem openWal_logged (hC : C.RoundTrip) {wal : WalWriter} (h : Logged C wal cs) :
    ∃ payloads, List.Forall₂ (Change.Encodes C) cs payloads ∧
      C.openWal wal.written = .ok (⟨walFormatVersion, wal.baseRevision⟩,
        (payloads.map (frame walLengthBytes)).flatten) := by
  obtain ⟨header, payloads, hheader, hps, hwritten⟩ := h
  refine ⟨payloads, hps, ?_⟩
  rw [hwritten]
  exact openWal_header hC hheader _

/-- What an ingredient hands over carries its change out. -/
theorem applyWalEntry_encoded (db : Database V) (hC : C.RoundTrip) {i : PersistableIngredient}
    {c : Change V}
    (hkind : i.kind = c.key.kind) (htype : i.sectionType = c.sectionType) {change : EncodedChange}
    (h : c.encoded C = .ok change) :
    change.1 = c.revision ∧
      db.applyWalEntry C i change.1 change.2.1 change.2.2 = .ok (c.apply db) := by
  cases c with
  | slot k e =>
    obtain ⟨kind, key⟩ := k
    obtain ⟨value, changedAt⟩ := e
    obtain rfl : i.kind = kind := hkind
    simp only [Change.encoded, WalCodec.encodeSlot] at h
    cases hkey : C.encodeKey i.kind key with
    | error err => rw [hkey] at h; cases h
    | ok keyBytes =>
      rw [hkey] at h
      cases value with
      | none =>
        obtain rfl := Except.ok.inj h
        refine ⟨rfl, ?_⟩
        simp only [Database.applyWalEntry, htype, Change.sectionType, hC.key hkey]
        rfl
      | some v =>
        cases hvalue : C.encodeValue i.kind v with
        | error err => simp [hvalue, bind, Except.bind] at h
        | ok valueBytes =>
          simp only [hvalue] at h
          obtain rfl := Except.ok.inj h
          refine ⟨rfl, ?_⟩
          simp only [Database.applyWalEntry, htype, Change.sectionType, hC.key hkey,
            hC.value hvalue]
          rfl
  | cell k r =>
    obtain ⟨kind, key⟩ := k
    obtain rfl : i.kind = kind := hkind
    simp only [Change.encoded, WalCodec.encodeCell] at h
    cases hkey : C.encodeKey i.kind key with
    | error err => rw [hkey] at h; cases h
    | ok keyBytes =>
      cases hvalue : C.encodeDerived i.kind key r with
      | error err => simp [hkey, hvalue, bind, Except.bind] at h
      | ok valueBytes =>
        rw [hkey, hvalue] at h
        obtain rfl := Except.ok.inj h
        refine ⟨rfl, ?_⟩
        simp only [Database.applyWalEntry, htype, Change.sectionType, hC.key hkey,
          hC.derived hvalue]
        rfl

/-- The entry of a change is decoded, and carries the change out. -/
theorem applyEntry_encoded (db : Database V) (hC : C.RoundTrip)
    (hnd : (ingredients.map (·.kind)).Nodup)
    {c : Change V} (hc : c.Listed ingredients) {payload : Bytes} (hp : c.Encodes C payload) :
    ∃ entry, C.decodeEntry payload = .ok entry ∧ entry.revision = c.revision ∧
      db.applyEntry C ingredients entry = .ok (some (c.apply db)) := by
  obtain ⟨i, hi, hkind, htype⟩ := hc
  obtain ⟨change, hchange, hentry⟩ := hp
  obtain ⟨hrev, happly⟩ := applyWalEntry_encoded db hC hkind htype hchange
  have hentryKind : (EncodedChange.entry c.key.kind change).kindId = i.kind := by
    obtain ⟨revision, keyBytes, _ | valueBytes⟩ := change <;> exact hkind.symm
  have hfind : ingredients.reverse.find?
      (·.kind = (EncodedChange.entry c.key.kind change).kindId) = some i := by
    rw [hentryKind]
    refine find_kind ?_ (List.mem_reverse.mpr hi)
    rwa [List.map_reverse, List.nodup_reverse]
  refine ⟨_, hC.entry hentry, ?_, ?_⟩
  · rw [← hrev]
    obtain ⟨revision, keyBytes, _ | valueBytes⟩ := change <;> rfl
  · have hsome := congrArg (Except.map some) happly
    unfold Database.applyEntry
    rw [hfind]
    obtain ⟨revision, keyBytes, _ | valueBytes⟩ := change <;> exact hsome

/-- Replaying a log, read by what comes first in it. -/
theorem replayEntries_eq (C : WalCodec V) (ingredients : List PersistableIngredient)
    (db : Database V) (n : Nat) (m : Revision) (bytes : Bytes) :
    db.replayEntries C ingredients n m bytes =
      match unframe walLengthBytes maxEntryLen bytes with
      | .done => (.ok (n, m), db)
      | .tooLong length => (.error (.cache ("WAL entry length (" ++ toString length
          ++ " bytes) exceeds maximum allowed (" ++ toString maxEntryLen
          ++ " bytes) - file may be corrupted")), db)
      | .truncated => (.error (.cache ("Failed to read WAL entry: " ++ eofMessage)), db)
      | .payload payload rest =>
        match C.decodeEntry payload with
        | .error e => (.error e, db)
        | .ok entry =>
          match db.applyEntry C ingredients entry with
          | .error e => (.error e, db)
          | .ok none => db.replayEntries C ingredients n m rest
          | .ok (some db) =>
            db.replayEntries C ingredients (n + 1) (max m entry.revision) rest := by
  rw [Database.replayEntries]
  split
  case h_4 payload rest h =>
    exact h ▸ rfl
  all_goals
    next h =>
      rw [h]

/-- A log at its end. -/
theorem replayEntries_done {bytes : Bytes} {n : Nat} {m : Revision}
    (h : unframe walLengthBytes maxEntryLen bytes = .done) :
    db.replayEntries C ingredients n m bytes = (.ok (n, m), db) := by
  rw [replayEntries_eq, h]

/-- A log that starts with an entry that is applied. -/
theorem replayEntries_cons {bytes rest payload : Bytes} {entry : WalEntry} {db' : Database V}
    {n : Nat} {m : Revision}
    (h : unframe walLengthBytes maxEntryLen bytes = .payload payload rest)
    (hdecode : C.decodeEntry payload = .ok entry)
    (happly : db.applyEntry C ingredients entry = .ok (some db')) :
    db.replayEntries C ingredients n m bytes =
      db'.replayEntries C ingredients (n + 1) (max m entry.revision) rest := by
  rw [replayEntries_eq, h]
  simp only [hdecode, happly]

/-- **The entries of a log carry its changes out, in order.** -/
theorem replayEntries_encoded (db : Database V) (hC : C.RoundTrip)
    (hnd : (ingredients.map (·.kind)).Nodup) {payloads : List Bytes}
    (hps : List.Forall₂ (Change.Encodes C) cs payloads)
    (hlisted : ∀ c ∈ cs, c.Listed ingredients) (hfits : ∀ c ∈ cs, c.Fits C) (n : Nat)
    (m : Revision) :
    db.replayEntries C ingredients n m ((payloads.map (frame walLengthBytes)).flatten) =
      (.ok (n + cs.length, Change.highest m cs), db.applyChanges cs) := by
  induction hps generalizing db n m with
  | nil => exact replayEntries_done (unframe_nil (by decide))
  | @cons c payload cs payloads hp _ ih =>
    obtain ⟨entry, hdecode, hrev, happly⟩ := applyEntry_encoded db hC hnd
      (hlisted c (List.mem_cons_self ..)) hp
    have hframe := unframe_frame (k := walLengthBytes) (by decide)
      (hfits c (List.mem_cons_self ..) payload hp) (payloads.map (frame walLengthBytes)).flatten
    rw [List.map_cons, List.flatten_cons, replayEntries_cons hframe hdecode happly, hrev,
      ih _ (fun c' hc' => hlisted c' (List.mem_cons_of_mem _ hc'))
        (fun c' hc' => hfits c' (List.mem_cons_of_mem _ hc')), List.length_cons, Nat.add_assoc,
      Nat.add_comm 1]
    rfl

/-- **Replaying a log carries its changes out**, moves the revision to the highest of them, and
files the dependencies of the listed cells. -/
theorem replayWal_logged (db : Database V) (hC : C.RoundTrip)
    (hnd : (ingredients.map (·.kind)).Nodup) {wal : WalWriter} (h : Logged C wal cs)
    (hlisted : ∀ c ∈ cs, c.Listed ingredients)
    (hfits : ∀ c ∈ cs, c.Fits C) (hrev : db.runtime.currentRevision = wal.baseRevision)
    (o : Order) :
    ∃ db', db.replayWal C o ingredients (.read wal.flush.file) = (.ok cs.length, db') ∧
      db'.inputs = write db.inputs (cs.filterMap Change.slotWrite) ∧
        db'.cells = write db.cells (cs.filterMap Change.cellWrite) ∧
          db'.interned = db.interned ∧
            db'.runtime.currentRevision = Change.highest wal.baseRevision cs := by
  obtain ⟨payloads, hps, hopen⟩ := openWal_logged hC h
  have hreplay := replayEntries_encoded db hC hnd hps hlisted hfits 0 wal.baseRevision
  rw [Nat.zero_add] at hreplay
  obtain ⟨hruntime, hinterned⟩ := rest_applyChanges db cs
  unfold Database.replayWal
  simp only [WalWriter.file_flush, hopen, hrev, ne_eq, not_true_eq_false, if_false, hreplay]
  -- the revision only moves up, and where it does not move it is the base revision
  have hbase := (Change.le_highest wal.baseRevision cs).1
  split
  · obtain ⟨hext, -⟩ := Database.extends_restoreRuntimeState (o := o) ingredients
      { db.applyChanges cs with
        runtime := (db.applyChanges cs).runtime.setCurrentRevision
          (Change.highest wal.baseRevision cs) }
    exact ⟨_, rfl, hext.inputs.trans (inputs_applyChanges ..),
      hext.cells.trans (cells_applyChanges ..), hext.interned.trans hinterned, hext.revision⟩
  · next hnot =>
    obtain ⟨hext, -⟩ := Database.extends_restoreRuntimeState (o := o) ingredients
      (db.applyChanges cs)
    refine ⟨_, rfl, hext.inputs.trans (inputs_applyChanges ..),
      hext.cells.trans (cells_applyChanges ..), hext.interned.trans hinterned, ?_⟩
    rw [hext.revision, hruntime, hrev]
    exact Nat.le_antisymm hbase (Nat.le_of_not_lt hnot)

end reading

end Picante

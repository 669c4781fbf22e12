/-
# What a reader makes of a log

`WalReader` takes one entry after another off a log (`nextEntry`, `readEntries`), and ends where
fewer bytes are left than a length takes.  A writer puts the frames of its entries behind the header
(`written_appendAll`), whatever their lengths.

So the reader ends at the end of the entries exactly when none is longer than it accepts, and the
bytes behind them are too few for a length (`readEntries_append_iff`):

* `written_log_is_read_iff` -- a whole log, of any entries.
* `cut_log_is_read_iff` -- a log that was cut: the entries that lie wholly in what is left are read
  and then the end, exactly when the cut is not behind the length of an entry.  Replaying then
  applies those entries and no others.
-/
import Picante.Persist.Replay

namespace Picante

open Framing

variable {V : Type}

/-! ## 1. Reading -/

/-- `next_entry`: the next entry of a log and what follows it, unless the log is at its end. -/
def WalCodec.nextEntry (C : WalCodec V) (bytes : Bytes) :
    PicanteResult (Option (WalEntry × Bytes)) :=
  match unframe walLengthBytes maxEntryLen bytes with
  | .done => .ok none
  | .tooLong length => .error (.cache ("WAL entry length (" ++ toString length
      ++ " bytes) exceeds maximum allowed (" ++ toString maxEntryLen
      ++ " bytes) - file may be corrupted"))
  | .truncated => .error (.cache ("Failed to read WAL entry: " ++ eofMessage))
  | .payload entryBytes rest => (C.decodeEntry entryBytes).map fun entry => some (entry, rest)

theorem WalCodec.length_of_nextEntry {C : WalCodec V} {bytes rest : Bytes} {entry : WalEntry}
    (h : C.nextEntry bytes = .ok (some (entry, rest))) : rest.length < bytes.length := by
  unfold nextEntry at h
  split at h
  · cases h
  · cases h
  · cases h
  · next entryBytes rest' hunframe =>
    cases hdecode : C.decodeEntry entryBytes with
    | error e => rw [hdecode] at h; cases h
    | ok entry' =>
      rw [hdecode] at h
      cases h
      have hlength := length_of_unframe hunframe
      unfold walLengthBytes at hlength
      omega

/-- `entries`: the entries up to the end of the log or to an error, and the error. -/
def WalCodec.readEntries (C : WalCodec V) (bytes : Bytes) : List WalEntry × Option PicanteError :=
  match _h : C.nextEntry bytes with
  | .error e => ([], some e)
  | .ok none => ([], none)
  | .ok (some (entry, rest)) =>
    let (entries, e) := C.readEntries rest
    (entry :: entries, e)
termination_by bytes.length
decreasing_by exact length_of_nextEntry _h

/-- A log that is opened and read: its header, its entries, and the error at which they end. -/
def WalCodec.readWal (C : WalCodec V) (bytes : Bytes) :
    PicanteResult (WalHeader × List WalEntry × Option PicanteError) := do
  let (header, rest) ← C.openWal bytes
  return (header, C.readEntries rest)

section reading

variable {C : WalCodec V} {bytes rest : Bytes} {entry : WalEntry} {e : PicanteError}

theorem readEntries_error (h : C.nextEntry bytes = .error e) :
    C.readEntries bytes = ([], some e) := by
  rw [WalCodec.readEntries]
  split
  · next heq => cases h.symm.trans heq; rfl
  · next heq => cases h.symm.trans heq
  · next heq => cases h.symm.trans heq

theorem readEntries_end (h : C.nextEntry bytes = .ok none) : C.readEntries bytes = ([], none) := by
  rw [WalCodec.readEntries]
  split
  · next heq => cases h.symm.trans heq
  · rfl
  · next heq => cases h.symm.trans heq

theorem readEntries_cons (h : C.nextEntry bytes = .ok (some (entry, rest))) :
    C.readEntries bytes = (entry :: (C.readEntries rest).1, (C.readEntries rest).2) := by
  rw [WalCodec.readEntries]
  split
  · next heq => cases h.symm.trans heq
  · next heq => cases h.symm.trans heq
  · next heq => cases h.symm.trans heq; rfl

/-- **The reader sees the end of a log where fewer bytes are left than a length takes.** -/
theorem readEntries_eq_end_iff :
    C.readEntries bytes = ([], none) ↔ bytes.length < walLengthBytes := by
  have hdone : unframe walLengthBytes maxEntryLen bytes = .done ↔ bytes.length < walLengthBytes :=
    unframe_eq_done_iff
  rw [← hdone]
  constructor
  · intro h
    cases hnext : C.nextEntry bytes with
    | error e =>
      rw [readEntries_error hnext] at h
      cases h
    | ok next =>
      cases next with
      | some p =>
        rw [readEntries_cons hnext] at h
        cases h
      | none =>
        unfold WalCodec.nextEntry at hnext
        split at hnext
        · assumption
        · cases hnext
        · cases hnext
        · next entryBytes rest hunframe =>
          cases hdecode : C.decodeEntry entryBytes <;> rw [hdecode] at hnext <;> cases hnext
  · intro h
    refine readEntries_end ?_
    unfold WalCodec.nextEntry
    rw [h]

end reading

/-! ## 2. Writing -/

/-- Appends entries one after another. -/
def WalWriter.appendAll (C : WalCodec V) (wal : WalWriter) (entries : List WalEntry) :
    PicanteResult WalWriter :=
  entries.foldlM (append C) wal

/-- The bytes of an entry. -/
def WalCodec.payload (C : WalCodec V) (entry : WalEntry) : Bytes :=
  match C.encodeEntry entry with
  | .ok bytes => bytes
  | .error _ => []

/-- The bytes an entry takes in a log. -/
def WalCodec.entryFrame (C : WalCodec V) (entry : WalEntry) : Bytes :=
  frame walLengthBytes (C.payload entry)

/-- How many bytes an entry takes in a log. -/
def WalCodec.entryLength (C : WalCodec V) (entry : WalEntry) : Nat :=
  walLengthBytes + (C.payload entry).length

theorem WalCodec.length_entryFrame (C : WalCodec V) (entry : WalEntry) :
    C.entryLength entry = (C.entryFrame entry).length := by
  simp [entryFrame, frame, entryLength]

/-- Bytes from which an entry's last ones are missing are not decoded. -/
def WalCodec.RefusesCut (C : WalCodec V) : Prop :=
  ∀ {entry bytes}, C.encodeEntry entry = .ok bytes → ∀ n < bytes.length,
    ∃ e, C.decodeEntry (bytes.take n) = .error e

section writing

variable {C : WalCodec V} {base : Revision} {threshold : Nat} {wal₀ wal : WalWriter}
  {entries : List WalEntry}

theorem WalCodec.payload_eq {entry : WalEntry} {bytes : Bytes}
    (h : C.encodeEntry entry = .ok bytes) : C.payload entry = bytes := by
  unfold payload
  rw [h]

/-- **What appending entries writes**: the frame of each. -/
theorem written_appendAll (h : wal₀.appendAll C entries = .ok wal) :
    wal.written = wal₀.written ++ entries.flatMap C.entryFrame ∧
      ∀ e ∈ entries, C.encodeEntry e = .ok (C.payload e) := by
  induction entries generalizing wal₀ with
  | nil =>
    cases h
    exact ⟨(List.append_nil _).symm, nofun⟩
  | cons entry entries ih =>
    unfold WalWriter.appendAll at h ih
    rw [List.foldlM_cons] at h
    cases hstep : wal₀.append C entry with
    | error e => rw [hstep] at h; cases h
    | ok wal₁ =>
      rw [hstep] at h
      obtain ⟨bytes, hbytes, hwritten₁, -⟩ := written_append hstep
      obtain ⟨hwritten, hall⟩ := ih h
      have hpayload := WalCodec.payload_eq hbytes
      refine ⟨?_, fun e he => ?_⟩
      · rw [hwritten, hwritten₁, List.flatMap_cons, WalCodec.entryFrame, hpayload,
          List.append_assoc]
      · rcases List.mem_cons.mp he with rfl | he
        · rw [hbytes, hpayload]
        · exact hall e he

/-- The header of a new log. -/
theorem written_create (hcreate : WalWriter.create C base threshold = .ok wal₀) :
    wal₀.written = wal₀.file ∧ ∃ header,
      C.encodeHeader ⟨walFormatVersion, base⟩ = .ok header ∧
        wal₀.file = walMagic ++ frame walLengthBytes header := by
  unfold WalWriter.create at hcreate
  cases hheader : C.encodeHeader ⟨walFormatVersion, base⟩ with
  | error e => rw [hheader] at hcreate; cases hcreate
  | ok header =>
    rw [hheader] at hcreate
    cases hcreate
    exact ⟨List.append_nil _, header, rfl, rfl⟩

/-- **A log is opened, whatever follows its header.** -/
theorem openWal_create (hC : C.RoundTrip) (hcreate : WalWriter.create C base threshold = .ok wal₀)
    (rest : Bytes) :
    C.openWal (wal₀.file ++ rest) = .ok (⟨walFormatVersion, base⟩, rest) := by
  obtain ⟨-, header, hheader, hfile⟩ := written_create hcreate
  rw [hfile, List.append_assoc]
  exact openWal_header hC hheader rest

/-! ## 3. What is read of what was written -/

/-- The next entry of a log is the one at its head, if it is not too long, and else an error. -/
theorem nextEntry_entryFrame (hC : C.RoundTrip) (hcut : C.RefusesCut) {entry : WalEntry}
    (hentry : C.encodeEntry entry = .ok (C.payload entry)) (rest : Bytes) :
    ((C.payload entry).length ≤ maxEntryLen ∧
      C.nextEntry (C.entryFrame entry ++ rest) = .ok (some (entry, rest))) ∨
    (maxEntryLen < (C.payload entry).length ∧
      ∃ e, C.nextEntry (C.entryFrame entry ++ rest) = .error e) := by
  unfold WalCodec.nextEntry WalCodec.entryFrame
  rcases Nat.lt_or_ge maxEntryLen (C.payload entry).length with hlong | hfits
  · refine .inr ⟨hlong, ?_⟩
    by_cases hwrapped : maxEntryLen < (C.payload entry).length % 256 ^ walLengthBytes
    · rw [unframe_frame_tooLong hwrapped]
      exact ⟨_, rfl⟩
    · -- the length has wrapped around: an initial part of the entry is taken for the whole
      obtain ⟨rest', htake⟩ := unframe_frame_take rest hwrapped
      obtain ⟨e, he⟩ := hcut hentry _
        (Nat.lt_of_le_of_lt (Nat.le_of_not_lt hwrapped) hlong)
      rw [htake]
      exact ⟨e, congrArg (Except.map _) he⟩
  · refine .inl ⟨hfits, ?_⟩
    rw [unframe_frame (by decide) hfits]
    exact congrArg (Except.map _) (hC.entry hentry)

/-- **The entries of a log are read, and then its end**, exactly when none of them is too long and
the bytes behind them are too few for a length. -/
theorem readEntries_append_iff (hC : C.RoundTrip) (hcut : C.RefusesCut)
    (hentries : ∀ e ∈ entries, C.encodeEntry e = .ok (C.payload e)) (tail : Bytes) :
    C.readEntries (entries.flatMap C.entryFrame ++ tail) = (entries, none) ↔
      tail.length < walLengthBytes ∧ ∀ e ∈ entries, (C.payload e).length ≤ maxEntryLen := by
  induction entries with
  | nil => simpa using readEntries_eq_end_iff
  | cons entry entries ih =>
    have ih := ih fun e he => hentries e (List.mem_cons_of_mem _ he)
    have hentry := hentries entry (List.mem_cons_self ..)
    rw [List.flatMap_cons, List.append_assoc, List.forall_mem_cons]
    rcases nextEntry_entryFrame hC hcut hentry (entries.flatMap C.entryFrame ++ tail) with
      ⟨hfits, hnext⟩ | ⟨hlong, e, hnext⟩
    · rw [readEntries_cons hnext, Prod.mk.injEq, List.cons.injEq, and_iff_right rfl,
        and_iff_right hfits, ← ih, Prod.ext_iff]
    · rw [readEntries_error hnext]
      exact iff_of_false nofun fun h => Nat.not_le_of_lt hlong h.2.1

/-- What follows the header in the log of a writer, cut after `n` bytes but not in its header. -/
theorem openWal_cut (hC : C.RoundTrip) (hcreate : WalWriter.create C base threshold = .ok wal₀)
    (happend : wal₀.appendAll C entries = .ok wal) {n : Nat} (hheader : wal₀.file.length ≤ n)
    (hfile : n ≤ wal.flush.file.length) :
    ∃ tail, tail.length = (fitting C.entryLength entries (n - wal₀.file.length)).2 ∧
      C.openWal (wal.flush.file.take n) = .ok (⟨walFormatVersion, base⟩,
        (fitting C.entryLength entries (n - wal₀.file.length)).1.flatMap C.entryFrame ++ tail) := by
  obtain ⟨hwritten, -⟩ := written_appendAll happend
  rw [(written_create hcreate).1] at hwritten
  rw [WalWriter.file_flush, hwritten] at hfile ⊢
  rw [List.length_append] at hfile
  have hn : n - wal₀.file.length ≤ (entries.flatMap C.entryFrame).length := by omega
  obtain ⟨tail, htake, hlength⟩ := take_flatMap_fitting C.length_entryFrame hn
  refine ⟨tail, hlength, ?_⟩
  rw [List.take_append, List.take_of_length_le hheader, htake, openWal_create hC hcreate]

end writing

/-! ## 4. Replaying what is read -/

/-- Applies entries one after another, up to the first that cannot be applied: how many there were,
and the highest of their revisions. -/
def Database.applyEntries [DecidableEq V] (C : WalCodec V)
    (ingredients : List PersistableIngredient) :
    Database V → Nat → Revision → List WalEntry → PicanteResult (Nat × Revision) × Database V
  | db, count, maxRevision, [] => (.ok (count, maxRevision), db)
  | db, count, maxRevision, entry :: entries =>
    match db.applyEntry C ingredients entry with
    | .error e => (.error e, db)
    | .ok none => applyEntries C ingredients db count maxRevision entries
    | .ok (some db) =>
      applyEntries C ingredients db (count + 1) (max maxRevision entry.revision) entries

/-- The end of a replay: the revision is moved, and the dependency graph rebuilt. -/
def Database.finishReplay (o : Order) (ingredients : List PersistableIngredient)
    (base maxRevision : Revision) (db : Database V) : Database V :=
  ingredients.foldl (restoreRuntimeState o)
    (if base < maxRevision then
      { db with runtime := db.runtime.setCurrentRevision maxRevision }
    else db)

section replaying

variable [DecidableEq V] {C : WalCodec V} {ingredients : List PersistableIngredient}

/-- An entry is applied before the next is read, which makes no difference: **what is replayed are
the entries that are read**, and an error of the reader comes after them. -/
theorem replayEntries_read (bytes : Bytes) (db : Database V) (count : Nat)
    (maxRevision : Revision) :
    db.replayEntries C ingredients count maxRevision bytes =
      match db.applyEntries C ingredients count maxRevision (C.readEntries bytes).1 with
      | (.error e, db) => (.error e, db)
      | (.ok result, db) =>
        match (C.readEntries bytes).2 with
        | some e => (.error e, db)
        | none => (.ok result, db) := by
  induction hlen : bytes.length using Nat.strong_induction_on generalizing bytes db count
    maxRevision with
  | _ len ih =>
    subst hlen
    rw [replayEntries_eq]
    cases hframe : unframe walLengthBytes maxEntryLen bytes with
    | done => rw [readEntries_end (by rw [WalCodec.nextEntry, hframe])]; rfl
    | tooLong length => rw [readEntries_error (by rw [WalCodec.nextEntry, hframe])]; rfl
    | truncated => rw [readEntries_error (by rw [WalCodec.nextEntry, hframe])]; rfl
    | payload payload rest =>
      simp only
      cases hdecode : C.decodeEntry payload with
      | error e =>
        have hnext : C.nextEntry bytes = .error e := by
          rw [WalCodec.nextEntry, hframe]
          exact congrArg (Except.map _) hdecode
        rw [readEntries_error hnext]
        rfl
      | ok entry =>
        have hnext : C.nextEntry bytes = .ok (some (entry, rest)) := by
          rw [WalCodec.nextEntry, hframe]
          exact congrArg (Except.map _) hdecode
        have hlt := WalCodec.length_of_nextEntry hnext
        rw [readEntries_cons hnext]
        simp only [Database.applyEntries]
        cases happly : db.applyEntry C ingredients entry with
        | error e => rfl
        | ok db' =>
          cases db' with
          | none => exact ih _ hlt rest db count maxRevision rfl
          | some db' => exact ih _ hlt rest db' (count + 1) _ rfl

/-- **A log that is read to its end is replayed**: its entries are applied, and the replay ends. -/
theorem replayWal_read {base : Revision} {bytes rest : Bytes} {entries : List WalEntry}
    {db db' : Database V} {count : Nat} {maxRevision : Revision} (o : Order)
    (hopen : C.openWal bytes = .ok (⟨walFormatVersion, base⟩, rest))
    (hread : C.readEntries rest = (entries, none)) (hbase : db.runtime.currentRevision = base)
    (happly : db.applyEntries C ingredients 0 base entries = (.ok (count, maxRevision), db')) :
    db.replayWal C o ingredients (.read bytes) =
      (.ok count, db'.finishReplay o ingredients base maxRevision) := by
  have hreplay : db.replayEntries C ingredients 0 base rest = _ := replayEntries_read rest db 0 base
  rw [hread] at hreplay
  simp only [happly] at hreplay
  unfold Database.replayWal
  simp only [hopen, if_neg (not_not.mpr hbase), hreplay]
  rfl

end replaying

/-! ## 5. Whole logs and cut logs -/

section logs

variable {C : WalCodec V} {base : Revision} {threshold : Nat} {wal₀ wal : WalWriter}
  {entries : List WalEntry}

/-- **What was appended is read exactly when no entry is longer than the reader accepts**: a log is
opened at its base revision, and its entries are read in order, up to its end. -/
theorem written_log_is_read_iff (hC : C.RoundTrip) (hcut : C.RefusesCut)
    (hcreate : WalWriter.create C base threshold = .ok wal₀)
    (happend : wal₀.appendAll C entries = .ok wal) :
    C.readWal wal.flush.file = .ok (⟨walFormatVersion, base⟩, entries, none) ↔
      ∀ e ∈ entries, (C.payload e).length ≤ maxEntryLen := by
  obtain ⟨hwritten, hentries⟩ := written_appendAll happend
  have hread : C.readEntries (entries.flatMap C.entryFrame) = (entries, none) ↔
      ∀ e ∈ entries, (C.payload e).length ≤ maxEntryLen := by
    have hiff := readEntries_append_iff hC hcut hentries []
    rwa [List.append_nil, and_iff_right (by decide)] at hiff
  rw [WalWriter.file_flush, hwritten, (written_create hcreate).1, ← hread]
  unfold WalCodec.readWal
  rw [openWal_create hC hcreate]
  constructor
  · intro h
    exact (Prod.mk.inj (Except.ok.inj h)).2
  · intro h
    rw [← h]
    rfl

/-- **A log that was cut behind its header is read up to the cut exactly when** the cut leaves too
few bytes of the next entry for its length, and no entry before it is longer than the reader
accepts.  Then replaying applies the entries that lie wholly before the cut, and no others. -/
theorem cut_log_is_read_iff [DecidableEq V] (hC : C.RoundTrip) (hcut : C.RefusesCut)
    (hcreate : WalWriter.create C base threshold = .ok wal₀)
    (happend : wal₀.appendAll C entries = .ok wal) {n : Nat} (hheader : wal₀.file.length ≤ n)
    (hfile : n ≤ wal.flush.file.length) {whole : List WalEntry} {left : Nat}
    (hwhole : fitting C.entryLength entries (n - wal₀.file.length) = (whole, left)) :
    (C.readWal (wal.flush.file.take n) = .ok (⟨walFormatVersion, base⟩, whole, none) ∧
      ∀ (o : Order) (ingredients : List PersistableIngredient) (db db' : Database V) (count : Nat)
        (maxRevision : Revision), db.runtime.currentRevision = base →
        db.applyEntries C ingredients 0 base whole = (.ok (count, maxRevision), db') →
          db.replayWal C o ingredients (.read (wal.flush.file.take n)) =
            (.ok count, db'.finishReplay o ingredients base maxRevision)) ↔
      left < walLengthBytes ∧ ∀ e ∈ whole, (C.payload e).length ≤ maxEntryLen := by
  obtain ⟨-, hentries⟩ := written_appendAll happend
  obtain ⟨tail, hlength, hopen⟩ := openWal_cut hC hcreate happend hheader hfile
  have hfits : whole <+: entries := by
    have := fitting_prefix C.entryLength entries (n - wal₀.file.length)
    rwa [hwhole] at this
  rw [hwhole] at hlength hopen
  have hread := readEntries_append_iff hC hcut
    (fun e he => hentries e (hfits.subset he)) tail
  rw [hlength] at hread
  have hreadWal : C.readWal (wal.flush.file.take n) =
      .ok (⟨walFormatVersion, base⟩, C.readEntries (whole.flatMap C.entryFrame ++ tail)) := by
    unfold WalCodec.readWal
    rw [hopen]
    rfl
  rw [hreadWal]
  constructor
  · intro h
    exact hread.mp (Prod.mk.inj (Except.ok.inj h.1)).2
  · intro h
    have hall := hread.mpr h
    refine ⟨by rw [hall], ?_⟩
    intro o ingredients db db' count maxRevision hbase happly
    exact replayWal_read o hopen hall hbase happly

end logs

/-! ### Logs that are not read -/

/-- The codec that encodes one entry, as the given bytes, and another codec otherwise. -/
def WalCodec.withEntry (C : WalCodec V) (entry : WalEntry) (bytes : Bytes) : WalCodec V :=
  { C with
    encodeEntry := fun e => if e = entry then .ok bytes else .error (.encode "WAL entry" "unknown")
    decodeEntry := fun b =>
      if b = bytes then .ok entry else .error (.decode "WAL entry" "not in table") }

section withEntry

variable (C : WalCodec V) (entry : WalEntry) (bytes : Bytes)

theorem WalCodec.encodeEntry_withEntry : (C.withEntry entry bytes).encodeEntry entry = .ok bytes :=
  if_pos rfl

theorem WalCodec.bytes_withEntry {C : WalCodec V} {entry e : WalEntry} {bytes b : Bytes}
    (h : (C.withEntry entry bytes).encodeEntry e = .ok b) : e = entry ∧ b = bytes := by
  simp only [withEntry] at h
  split at h
  · next he => exact ⟨he, (Except.ok.inj h).symm⟩
  · cases h

theorem WalCodec.roundTrip_withEntry {C : WalCodec V} (hC : C.RoundTrip) (entry : WalEntry)
    (bytes : Bytes) : (C.withEntry entry bytes).RoundTrip :=
  { hC with
    entry := fun h => by
      obtain ⟨rfl, rfl⟩ := bytes_withEntry h
      exact if_pos rfl }

theorem WalCodec.refusesCut_withEntry : (C.withEntry entry bytes).RefusesCut := by
  intro e b h n hn
  obtain ⟨-, rfl⟩ := bytes_withEntry h
  refine ⟨_, if_neg fun heq => ?_⟩
  have hlength := congrArg List.length heq
  rw [List.length_take] at hlength
  omega

end withEntry

namespace Torn

/-- An entry. -/
def entry : WalEntry := ⟨1, 0, .set [] []⟩

/-- A codec for logs that start at revision 0. -/
def headers : WalCodec Nat := .ofTable ⟨[], [], [], []⟩ [] ⟨[⟨walFormatVersion, 0⟩], [], []⟩

theorem roundTrip_headers : headers.RoundTrip := WalCodec.roundTrip_ofTable ..

/-- A new log. -/
def log₀ : WalWriter := ⟨walMagic ++ frame walLengthBytes [], [], 0, 0, 100⟩

/-- The entry takes one byte. -/
def short : WalCodec Nat := headers.withEntry entry [1]

/-- A log that the entry was appended to twice. -/
def log : WalWriter :=
  ⟨log₀.file, frame walLengthBytes [1] ++ frame walLengthBytes [1], 0, 2, 100⟩

/-- The log is cut in the length of the second entry. -/
theorem cut_log_is_read :
    short.readWal (log.flush.file.take 20) = .ok (⟨walFormatVersion, 0⟩, [entry], none) :=
  ((cut_log_is_read_iff (WalCodec.roundTrip_withEntry roundTrip_headers entry [1])
    (WalCodec.refusesCut_withEntry headers entry [1])
    (show WalWriter.create short 0 100 = .ok log₀ from rfl)
    (show log₀.appendAll short [entry, entry] = .ok log from rfl) (by decide) (by decide)
    (show fitting short.entryLength [entry, entry] (20 - log₀.file.length) =
      ([entry], 3) from rfl)).mpr
      ⟨by decide, by decide⟩).1

/-- The log is cut behind the length of the second entry: the reader does not take it for the end,
and the replay fails although every entry before the cut can be applied. -/
theorem cut_entry_is_an_error :
    WalWriter.create short 0 100 = .ok log₀ ∧
      log₀.appendAll short [entry, entry] = .ok log ∧
      fitting short.entryLength [entry, entry] (21 - log₀.file.length) = ([entry], 4) ∧
      short.readWal (log.flush.file.take 21) = .ok (⟨walFormatVersion, 0⟩, [entry],
        some (.cache "Failed to read WAL entry: failed to fill whole buffer")) ∧
      ∀ (o : Order) (db : Database Nat), db.runtime.currentRevision = 0 →
        db.applyEntries short [] 0 0 [entry] = (.ok (0, 0), db) ∧
        db.replayWal short o [] (.read (log.flush.file.take 21)) =
          (.error (.cache "Failed to read WAL entry: failed to fill whole buffer"), db) := by
  have hfirst : short.nextEntry (frame walLengthBytes [1] ++ leBytes walLengthBytes 1) =
      .ok (some (entry, leBytes walLengthBytes 1)) := rfl
  have hsecond : short.nextEntry (leBytes walLengthBytes 1) =
      .error (.cache "Failed to read WAL entry: failed to fill whole buffer") := rfl
  have hread : short.readEntries (frame walLengthBytes [1] ++ leBytes walLengthBytes 1) =
      ([entry], some (.cache "Failed to read WAL entry: failed to fill whole buffer")) := by
    rw [readEntries_cons hfirst, readEntries_error hsecond]
  have hopen : short.openWal (log.flush.file.take 21) =
      .ok (⟨walFormatVersion, 0⟩, frame walLengthBytes [1] ++ leBytes walLengthBytes 1) := rfl
  refine ⟨rfl, rfl, rfl, ?_, fun o db hbase => ⟨rfl, ?_⟩⟩
  · unfold WalCodec.readWal
    rw [hopen]
    exact congrArg (fun r => Except.ok (_, r)) hread
  · unfold Database.replayWal
    have hreplay : db.replayEntries short [] 0 0 (frame walLengthBytes [1] ++
        leBytes walLengthBytes 1) = _ := replayEntries_read ..
    rw [hread] at hreplay
    simp only [hopen, if_neg (not_not.mpr hbase), hreplay]
    rfl

/-- The entry takes one byte more than the reader accepts. -/
def long : WalCodec Nat := headers.withEntry entry (List.replicate (maxEntryLen + 1) 0)

/-- A log that the short entry was appended to. -/
theorem short_entry_is_read :
    short.readWal log.flush.file = .ok (⟨walFormatVersion, 0⟩, [entry, entry], none) :=
  (written_log_is_read_iff (WalCodec.roundTrip_withEntry roundTrip_headers entry [1])
    (WalCodec.refusesCut_withEntry headers entry [1])
    (show WalWriter.create short 0 100 = .ok log₀ from rfl)
    (show log₀.appendAll short [entry, entry] = .ok log from rfl)).mpr (by decide)

/-- An entry one byte longer than the reader accepts is appended, and not read. -/
theorem long_is_not_read {bytes : Bytes} (hlength : bytes.length = maxEntryLen + 1) :
    ∃ wal, log₀.appendAll (headers.withEntry entry bytes) [entry] = .ok wal ∧
      (headers.withEntry entry bytes).readWal wal.flush.file = .ok (⟨walFormatVersion, 0⟩, [],
        some (.cache ("WAL entry length (100000001 bytes) exceeds maximum allowed " ++
          "(100000000 bytes) - file may be corrupted"))) := by
  have hentry := WalCodec.encodeEntry_withEntry headers entry bytes
  have happend : ∃ wal, log₀.appendAll (headers.withEntry entry bytes) [entry] = .ok wal := by
    unfold WalWriter.appendAll WalWriter.append
    rw [List.foldlM_cons, hentry]
    exact ⟨_, rfl⟩
  obtain ⟨wal, happend⟩ := happend
  have hcreate : WalWriter.create (headers.withEntry entry bytes) 0 100 = .ok log₀ := rfl
  have hfile : wal.flush.file = log₀.file ++ (headers.withEntry entry bytes).entryFrame entry := by
    rw [WalWriter.file_flush, (written_appendAll happend).1, (written_create hcreate).1,
      List.flatMap_cons, List.flatMap_nil, List.append_nil]
  have hlong : unframe walLengthBytes maxEntryLen
      ((headers.withEntry entry bytes).entryFrame entry) = .tooLong (maxEntryLen + 1) := by
    have hlt : bytes.length < 256 ^ walLengthBytes := by
      rw [hlength]
      decide
    have hmax : maxEntryLen < bytes.length := by
      rw [hlength]
      exact Nat.lt_succ_self _
    have htoo := unframe_tooLong hlt hmax []
    rw [WalCodec.entryFrame, WalCodec.payload_eq hentry]
    rwa [List.append_nil, hlength] at htoo
  have hnext : (headers.withEntry entry bytes).nextEntry
      ((headers.withEntry entry bytes).entryFrame entry) = .error (.cache
        ("WAL entry length (100000001 bytes) exceeds maximum allowed " ++
          "(100000000 bytes) - file may be corrupted")) := by
    unfold WalCodec.nextEntry
    rw [hlong]
    rfl
  refine ⟨wal, happend, ?_⟩
  unfold WalCodec.readWal
  rw [hfile, openWal_create (WalCodec.roundTrip_withEntry roundTrip_headers entry _) hcreate]
  exact congrArg (fun r => Except.ok (_, r)) (readEntries_error hnext)

/-- The long entry is appended, and not read. -/
theorem long_entry_is_not_read : WalWriter.create long 0 100 = .ok log₀ ∧
    ∃ wal, log₀.appendAll long [entry] = .ok wal ∧
      long.readWal wal.flush.file = .ok (⟨walFormatVersion, 0⟩, [], some (.cache
        ("WAL entry length (100000001 bytes) exceeds maximum allowed " ++
          "(100000000 bytes) - file may be corrupted"))) :=
  ⟨rfl, long_is_not_read List.length_replicate⟩

end Torn

end Picante

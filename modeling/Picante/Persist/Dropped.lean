/-
# A cache that was cut

A file that was saved within limits has some of the slots and some of the records of the database.
What is loaded from it is not the database at an earlier time: a slot that was dropped reads as
empty, with the stamp 0, so that a record that has it as a dependency passes every check, and a
record that was verified at the saved revision is not even checked.

* `cut_cache_is_coherent` -- where every slot survives that a surviving record has as a dependency,
  or that is read when a surviving record of the saved revision is evaluated, what an access returns
  after the load is what the evaluation over the surviving slots returns.
* `dropped_slot_is_trusted` -- without it, a record computed from a slot that is gone is returned.

What is loaded comes from the saved database (`from_load`), so the loaded world is one that was cut
from the saved one (`cutFrom_of_load`).
-/
import Picante.Coherence.Cut
import Picante.Persist.Reissued
import Picante.Persist.Used
import Picante.Races

namespace Picante

open Config ReadProg Stamp Tables

variable {V : Type}

/-! ## 1. What is loaded comes from the saved database -/

/-- Every slot of `db` is one of `base`, and every ready cell holds a record of `base`. -/
structure Database.From (base db : Database V) : Prop where
  inputs : ∀ q e, db.inputs q = some e → base.inputs q = some e
  cells : ∀ q, db.cells q = .new ∨
    ∃ r, (base.cells q).state.record = some r ∧ db.cells q = .newReady r

section loaded

variable {C : Codec V} {o o' : Order} {ingredients : List PersistableIngredient}
  {base db db' : Database V} {i : PersistableIngredient} {records : List Bytes}

/-- The records of an input section bring slots of the saved database. -/
theorem inputs_loadInputs {inputs : Inputs V} {kind : QueryKindId}
    (h : ∀ q e, inputs q = some e → base.inputs q = some e)
    (hrecords : ∀ bytes ∈ records, ∀ key e, C.decodeInput kind bytes = .ok (key, e) →
      base.inputs ⟨kind, key⟩ = some e) (q : DynKey) (e : InputEntry V)
    (hq : (loadInputs C kind inputs records).2 q = some e) : base.inputs q = some e := by
  induction records generalizing inputs with
  | nil => exact h q e hq
  | cons bytes rest ih =>
    obtain ⟨hbytes, hrest⟩ := List.forall_mem_cons.mp hrecords
    unfold loadInputs at hq
    cases hdecode : C.decodeInput kind bytes with
    | error err =>
      rw [hdecode] at hq
      exact h q e hq
    | ok entry =>
      obtain ⟨key, e'⟩ := entry
      rw [hdecode] at hq
      refine ih (fun q' e'' hq' => ?_) hrest hq
      rw [Function.update_apply] at hq'
      split at hq'
      · next heq =>
        cases hq'
        rw [heq]
        exact hbytes key e' hdecode
      · exact h q' e'' hq'

/-- The records of a derived section bring records of the saved database. -/
theorem cells_loadDerived {cells : DynKey → ErasedCell V} {kind : QueryKindId}
    (h : ∀ q, cells q = .new ∨ ∃ r, (base.cells q).state.record = some r ∧ cells q = .newReady r)
    (hrecords : ∀ bytes ∈ records, ∀ key r, C.decodeDerived kind bytes = .ok (key, r) →
      (base.cells ⟨kind, key⟩).state.record = some r) (q : DynKey) :
    (loadDerived C kind cells records).2 q = .new ∨ ∃ r, (base.cells q).state.record = some r ∧
      (loadDerived C kind cells records).2 q = .newReady r := by
  induction records generalizing cells with
  | nil => exact h q
  | cons bytes rest ih =>
    obtain ⟨hbytes, hrest⟩ := List.forall_mem_cons.mp hrecords
    unfold loadDerived
    cases hdecode : C.decodeDerived kind bytes with
    | error err => exact h q
    | ok entry =>
      obtain ⟨key, r⟩ := entry
      refine ih (fun q' => ?_) hrest
      by_cases hq' : q' = ⟨kind, key⟩
      · rw [hq', Function.update_self]
        exact .inr ⟨r, hbytes key r hdecode, rfl⟩
      · rw [Function.update_of_ne hq']
        exact h q'

/-- What the records of a saved ingredient decode to. -/
theorem decode_saveRecords (hC : C.RoundTrip) (hsave : base.saveRecords o C i = .ok records)
    {bytes : Bytes} (hbytes : bytes ∈ records) :
    match i.sectionType with
    | .input => ∀ key e, C.decodeInput i.kind bytes = .ok (key, e) →
        base.inputs ⟨i.kind, key⟩ = some e
    | .derived => ∀ key r, C.decodeDerived i.kind bytes = .ok (key, r) →
        (base.cells ⟨i.kind, key⟩).state.record = some r
    | .interned => True := by
  unfold Database.saveRecords at hsave
  cases htype : i.sectionType with
  | input =>
    simp only [htype] at hsave
    obtain ⟨⟨key, e⟩, hentry, hencode⟩ :=
      exists_of_forall₂ (mapM_eq_ok_iff.mp hsave).flip hbytes
    intro key' e' hdecode
    cases hdecode.symm.trans (hC.input hencode)
    exact (mem_entries.mp hentry).2
  | derived =>
    simp only [htype] at hsave
    obtain ⟨⟨key, r⟩, hentry, hencode⟩ :=
      exists_of_forall₂ (mapM_eq_ok_iff.mp hsave).flip hbytes
    intro key' r' hdecode
    cases hdecode.symm.trans (hC.derived hencode)
    exact (mem_entries.mp hentry).2
  | interned => trivial

namespace Database.From

theorem new (base : Database V) (id : RuntimeId) : From base (Database.new id) :=
  ⟨fun _ _ => nofun, fun _ => .inl rfl⟩

variable [DecidableEq V]

omit [DecidableEq V] in
theorem clear (h : From base db) (i : PersistableIngredient) : From base (db.clear i) := by
  unfold Database.clear
  cases i.sectionType with
  | input =>
    refine ⟨fun q e hq => ?_, h.cells⟩
    simp only at hq
    split at hq
    · cases hq
    · exact h.inputs q e hq
  | derived =>
    refine ⟨h.inputs, fun q => ?_⟩
    simp only
    split
    · exact .inl rfl
    · exact h.cells q
  | interned => exact ⟨h.inputs, h.cells⟩

omit [DecidableEq V] in
theorem cleared (h : From base db) : From base (db.cleared ingredients) := by
  have hfold : ∀ (rest : List PersistableIngredient) (db : Database V), From base db →
      From base (rest.foldl Database.clear db) := by
    intro rest
    induction rest with
    | nil => exact fun db hdb => hdb
    | cons i rest ih => exact fun db hdb => ih _ (hdb.clear i)
  exact hfold ingredients _ ⟨h.inputs, h.cells⟩

/-- Some of the records of a saved ingredient are loaded. -/
theorem loadRecords (hC : C.RoundTrip) (h : From base db)
    (hsave : base.saveRecords o C i = .ok records) {some : List Bytes}
    (hsub : ∀ bytes ∈ some, bytes ∈ records) : From base (db.loadRecords C i some).2 := by
  have hdecode : ∀ bytes ∈ some, _ := fun bytes hbytes =>
    decode_saveRecords hC hsave (hsub bytes hbytes)
  unfold Database.loadRecords
  cases htype : i.sectionType with
  | input =>
    simp only [htype] at hdecode
    exact ⟨inputs_loadInputs h.inputs hdecode, h.cells⟩
  | derived =>
    simp only [htype] at hdecode
    exact ⟨h.inputs, cells_loadDerived h.cells hdecode⟩
  | interned => exact ⟨h.inputs, h.cells⟩

/-- The sections of a saved cache are loaded, each with some of its records. -/
theorem loadSections (hC : C.RoundTrip) (hnd : (ingredients.map (·.kind)).Nodup)
    {sections : List Section}
    (hsections : ∀ s ∈ sections, ∃ i ∈ ingredients, s.kindId = i.kind ∧ ∃ s₀,
      base.saveSection o C i = .ok s₀ ∧ Section.Cut s₀ s)
    (h : From base db) : From base (db.loadSections C ingredients sections).2 := by
  induction sections generalizing db with
  | nil => exact h
  | cons s rest ih =>
    obtain ⟨⟨i, hi, hkind, s₀, hsave, hcut⟩, hrest⟩ := List.forall_mem_cons.mp hsections
    have hfind : ingredients.find? (·.kind = s.kindId) = some i := by
      rw [hkind]
      exact find_kind hnd hi
    obtain ⟨records, hrecords, rfl⟩ := saveSection_ok hsave
    have hload : From base (db.loadRecords C i s.records).2 :=
      h.loadRecords hC hrecords fun bytes hbytes => hcut.records.subset hbytes
    unfold Database.loadSections
    simp only [hfind]
    split
    · exact h
    · split
      · exact h
      · split
        · next heq => rwa [heq] at hload
        · next heq =>
          rw [heq] at hload
          exact ih hrest hload

theorem restored (h : From base db) (rev : Revision) :
    From base (db.restored o ingredients rev) := by
  obtain ⟨hext, -⟩ := Database.extends_restoreRuntimeState (o := o) ingredients db
  refine ⟨fun q e hq => h.inputs q e ?_, fun q => ?_⟩
  · rw [← hext.inputs]
    exact hq
  · have hcells : (db.restored o ingredients rev).cells q = db.cells q := congrFun hext.cells q
    rw [hcells]
    exact h.cells q

end Database.From

variable {options : CacheSaveOptions} {bytes : Bytes} {runtime : RuntimeId}

/-- **What is loaded from a cache that was saved within limits** comes from the saved database, and
is at its revision. -/
theorem from_load [DecidableEq V] (hC : C.RoundTrip)
    (hsave : base.saveCacheWithOptions o C ingredients options = .ok bytes)
    (hload : (Database.new runtime).loadCache C o' ingredients (.read bytes) = (.ok true, db)) :
    Database.From base db ∧
      db.runtime.currentRevision = base.runtime.currentRevision := by
  obtain ⟨hnd, sections, cache, hsections, hcut, hencode⟩ := saved_cut hsave
  obtain ⟨version, rev, cut⟩ := cache
  obtain ⟨rfl, rfl, hcut⟩ := hcut
  obtain ⟨db₁, hloaded, rfl⟩ := loadCache_ok (openCache_saved hC hnd hencode) hload
  have hall : ∀ s ∈ cut, ∃ i ∈ ingredients, s.kindId = i.kind ∧ ∃ s₀,
      base.saveSection o C i = .ok s₀ ∧ Section.Cut s₀ s := by
    intro s hs
    obtain ⟨s₀, hs₀, hcut⟩ := exists_of_forall₂ hcut.flip hs
    obtain ⟨i, hi, hsaved⟩ := exists_of_forall₂ hsections.flip hs₀
    refine ⟨i, hi, ?_, s₀, hsaved, hcut⟩
    obtain ⟨records, -, rfl⟩ := saveSection_ok hsaved
    exact hcut.kindId
  have hcleared : Database.From base ((Database.new runtime).cleared ingredients) :=
    (Database.From.new base runtime).cleared
  have hfrom := hcleared.loadSections hC hnd hall
  rw [hloaded] at hfrom
  exact ⟨hfrom.restored _, rfl⟩

end loaded

/-! ## 2. The loaded world -/

section reload

variable {w : World V} {db : Database V}

theorem ready_of_record {st : ErasedState V} {r : DerivedRecord V} (h : st.record = some r)
    (hn : ∀ R, st = .ready R → R.foreign = false) :
    st = .ready ⟨r.value, r.verifiedAt, r.changedAt, r.deps, false⟩ := by
  cases st with
  | ready R =>
    have hf := hn R rfl
    obtain rfl := Option.some.inj h
    rw [← hf]
  | vacant | running _ _ | poisoned _ _ => cases h

/-- **A database that was loaded into a new process.** -/
theorem cutFrom_reload (hn : w.Native) {n : Nat} (hfrom : Database.From w.database db)
    (hid : db.runtime.identity = (1, false, 0))
    (hrev : db.runtime.currentRevision = w.rev 0)
    (hinterned : ∀ kind id v, (db.interned kind).byId id = some v →
      (w.interned kind).byId id = some v)
    (hfresh : ∀ kind, (db.interned kind).Fresh) :
    w.CutFrom ((start n : Config V).world.reload db) := by
  have hstart : (start n : Config V).world.Lone := ⟨rfl, fun _ _ => rfl, rfl, fun _ _ _ => rfl⟩
  have hlone : ((start n : Config V).world.reload db).Lone := hstart.reload hid
  have hview := (start n : Config V).world.views_reload db
  have hcell : ∀ q, ((start n : Config V).world.reload db).state 0 q = (db.cells q).state := by
    intro q
    unfold World.state World.cell
    rw [hview]
  constructor
  · exact hlone.viewCount
  · exact hlone.origin
  · exact hlone.scope
  · unfold World.rev at hrev ⊢
    rw [hview]
    exact hrev
  · exact hlone.others
  · intro k e he
    unfold World.inputs at he
    rw [hview] at he
    exact hfrom.inputs k e he
  · intro q R hs
    rw [hcell] at hs
    rcases hfrom.cells q with hnew | ⟨r, hr, hcell⟩
    · rw [hnew] at hs
      cases hs
    · rw [hcell] at hs
      cases hs
      exact ready_of_record hr fun R' hR' => (hn.ready hR').foreign
  · intro q e ver hs
    rw [hcell] at hs
    rcases hfrom.cells q with hnew | ⟨r, hr, hcell⟩
    · rw [hnew] at hs
      cases hs
    · rw [hcell] at hs
      cases hs
  · exact hinterned
  · exact hfresh
  · exact fun _ _ => rfl
  · rfl
  · rfl

end reload

/-! ## 3. Runs of a loaded database -/

section runs

variable [DecidableEq V] {S : Schema V} {body : DynKey → Query V} {C : Codec V} {o o' : Order}
  {ingredients : List PersistableIngredient} {options : CacheSaveOptions} {bytes : Bytes}
  {c : Config V} {db : Database V} {ls : List (Label V)}

/-- The loaded database is what has come of the saved one. -/
theorem cutFrom_of_load (hC : C.RoundTrip) (hn : c.world.Native)
    (hsave : c.world.database.saveCacheWithOptions o C ingredients options = .ok bytes)
    (hload : (Database.new 1).loadCache C o' ingredients (.read bytes) = (.ok true, db)) (n : Nat) :
    c.world.CutFrom ((start n).reload db).world := by
  obtain ⟨hfrom, hrev⟩ := from_load hC hsave hload
  have htables := tables_of_load hC hsave hload
  refine cutFrom_reload hn hfrom (Database.spares_loadCache hload).identity hrev
    (fun kind => (htables kind).2.1) fun kind id hle => ?_
  cases hv : (db.interned kind).byId id with
  | none => rfl
  | some v =>
    have hlt := ((htables kind).2.2 id).mpr (.inr ⟨id, v, Nat.le_refl id, hv⟩)
    exact absurd hlt (Nat.not_lt_of_le hle)

/-- **A loaded database is at rest**, and its failures are accounted for from here on. -/
theorem rested_cut (hT : Spec.Fits ⟨S, body, .values⟩) (hC : C.RoundTrip)
    (h : Trans.Steps (step S) (fun c l _ => l.OnDatabase ∧ c.Asked .values l) init ls c)
    (hsave : c.world.database.saveCacheWithOptions o C ingredients options = .ok bytes)
    (hload : (Database.new 1).loadCache C o' ingredients (.read bytes) = (.ok true, db))
    {n : Nat} (hintact : c.world.Intact ⟨S, body, .values⟩ ((start n).reload db).world) :
    ∃ p, Spec.Rested ⟨S, body, .failures⟩ p ((start n).reload db) := by
  obtain ⟨horderly, hnative⟩ := orderly_of_asked h native_init fun e _ hf => allows_values hf
  obtain ⟨p, hext, hp, -⟩ := Spec.consistent_run hT (Spec.consistent_init _) Spec.upToDate_init
    horderly
  have hcut := cutFrom_of_load hC hnative.world hsave hload n
  have hcoherent := coherent_cut (hT.suits nofun) hp.world hcut hintact hext .failures nofun
  have hidle : ((start n).reload db).Idle := fun t => idle_init t
  refine ⟨_, ⟨hcoherent.settle.1, fun t ht => absurd ht (hidle t), fun t => trivial, nofun⟩,
    fun _ => rfl, .of_idle hidle rfl, ⟨hcut.native hnative.world, fun t ht => absurd ht (hidle t),
      fun t b hb => absurd hb List.not_mem_nil⟩, hidle⟩

/-- **A cache that was saved within limits is coherent** if what the surviving records stand on has
survived: what an access returns after the load, and after any further operations, is what the
evaluation without a cache returns, over the slots that are there. -/
theorem cut_cache_is_coherent (hdet : ∀ n q, S.compute n q = body q)
    (hprop : ∀ q, (body q).Propagates) (hC : C.RoundTrip)
    (h : Trans.Steps (step S) (fun c l _ => l.OnDatabase ∧ c.Asked .values l) init ls c)
    (hsave : c.world.database.saveCacheWithOptions o C ingredients options = .ok bytes)
    (hload : (Database.new 1).loadCache C o' ingredients (.read bytes) = (.ok true, db))
    {n fuel : Nat} {ops : List (Op V)} {q : DynKey} {want : Bool} {c' : Config V}
    (hintact : c.world.Intact ⟨S, body, .values⟩ ((start n).reload db).world)
    (hrun : runOps S fuel ((start n).reload db) (ops ++ [.access 0 q want]) = some c')
    (hops : ∀ op ∈ ops, op.OnDatabase) (hmissing : ∀ e ∈ c'.world.log, e.isMissing = false) :
    ∃ r, c'.lastResult = some r ∧ Agrees S body c'.world ((c'.world.inputs 0).get) q r := by
  obtain ⟨p, hrested⟩ := rested_cut ⟨hdet, fun _ => hprop⟩ hC h hsave hload hintact
  have hT : Spec.Fits ⟨S, body, .failures⟩ := ⟨hdet, fun _ => hprop⟩
  obtain ⟨r, hr, hret⟩ := returned_on_database hT hrested hrun hops fun e he hf =>
    allows_native hf (hmissing e he)
  exact ⟨r, hr, hret.agrees hprop (derived_of_access hrun)⟩

end runs

/-! ## 4. A slot that is gone -/

namespace Dropped

open RoundTrip (item ingredients)
open Computed (total body)
open Reused (schema)

def other : DynKey := ⟨0, [0]⟩

/-- Two slots are set, and the total is computed from the first. -/
def program : List (Op Nat) :=
  [.mutate 0 item (some 5), .mutate 0 other (some 6), .access 0 total true]

theorem program_on_database : ∀ op ∈ program, op.OnDatabase := by
  intro op hop
  simp only [program, List.mem_cons, List.not_mem_nil, or_false] at hop
  rcases hop with rfl | rfl | rfl <;> rfl

/-- The steps of this program. -/
def steps : List (Label Nat) :=
  [.mutate 0 item (some 5), .mutate 0 other (some 6), .spawn 0 total true] ++
    List.replicate 16 (.step 0)

/-- Records of more than one byte are skipped. -/
def options : CacheSaveOptions := ⟨none, none, some 1⟩

/-- The file with one slot and the total. -/
def file : CacheFile :=
  ⟨formatVersion, 2, [⟨0, "items", .input, [[]]⟩, ⟨1, "totals", .derived, [[]]⟩,
    ⟨2, "names", .interned, []⟩]⟩

/-- A codec in which the record of one of the slots, the last of the list, takes two bytes. -/
def codec (inputs : List (Key × InputEntry Nat)) : Codec Nat :=
  .ofTable ⟨[file], inputs, [([], ⟨5, 2, 2, [item]⟩)], []⟩

def longItem : Codec Nat := codec [([0], ⟨some 6, 2⟩), ([0, 0], ⟨none, 0⟩), ([], ⟨some 5, 1⟩)]
def longOther : Codec Nat := codec [([], ⟨some 5, 1⟩), ([0, 0], ⟨none, 0⟩), ([0], ⟨some 6, 2⟩)]

def order : Order :=
  ⟨fun kind => if kind = 0 then [[], [0]] else [], fun kind => if kind = 1 then [[]] else [],
    fun _ => []⟩

/-- A fresh database, from the file. -/
def load (C : Codec Nat) : PicanteResult Bool × Database Nat :=
  (Database.new 1).loadCache C order ingredients (.read [])

/-- The total depends on the item. -/
theorem dependsOn_total {σ : ReadProg.Env DynKey PicanteError (Option Nat) Nat}
    (hbody : σ.body = body) {q d : DynKey} (h : DependsOn σ q d) : d = q ∨ d = item := by
  induction h with
  | refl => exact .inl rfl
  | tail _ hc _ =>
    obtain ⟨obs, k, hf, hok⟩ := hc
    rw [hbody] at hf
    cases obs with
    | nil =>
      cases follows_nil.mp hf
      exact .inr rfl
    | cons da obs =>
      -- after its only read the program is done
      obtain ⟨d', a⟩ := da
      obtain ⟨-, hrest⟩ := follows_read_cons.mp hf
      obtain ⟨-, x, rfl⟩ := hok _ (List.mem_cons_self ..)
      cases x <;> cases obs <;> first | cases follows_nil.mp hrest | cases hrest

/-- With the record of the other slot skipped, what is left is intact. -/
theorem intact_longOther {c : Config Nat} (hitem : c.world.inputs 0 item = some ⟨some 5, 1⟩) :
    c.world.Intact ⟨schema, body, .values⟩ ((start 0).reload (load longOther).2).world := by
  have hretains : ∀ d, d = total ∨ d = item →
      c.world.Retains schema ((start 0).reload (load longOther).2).world d := by
    rintro d (rfl | rfl)
    · trivial
    · exact hitem.symm
  -- the total is the only record there is
  have htotal : ∀ q R, ((start 0).reload (load longOther).2).world.state 0 q = .ready R →
      q = total ∧ R.deps = [item] := by
    intro q R hs
    have hcell : ((load longOther).2.cells q).state = .ready R := hs
    by_cases hq : q = total
    · subst hq
      cases hcell
      exact ⟨rfl, rfl⟩
    · have hcleared : ((Database.new 1 : Database Nat).cleared ingredients).cells q = .new :=
        ite_self _
      have hnew : (load longOther).2.cells q = .new :=
        (Function.update_of_ne hq ..).trans hcleared
      rw [hnew] at hcell
      cases hcell
  constructor
  · intro q R hs d hd
    rw [(htotal q R hs).2] at hd
    exact hretains d (.inr (List.mem_singleton.mp hd))
  · intro q R hs _ d hd
    obtain ⟨rfl, -⟩ := htotal q R hs
    exact hretains d (dependsOn_total rfl hd)

end Dropped

open Dropped in
open RoundTrip (item ingredients) in
open Computed (total body) in
open Reused (schema) in
/-- **The record of a slot is skipped, and a value computed from it is not.**  The item is gone, and
without it the total is an error; but its record was verified at the saved revision, and the access
returns what it says. -/
theorem dropped_slot_is_trusted :
    ¬ ∀ (C : Codec Nat) (o o' : Order) (options : CacheSaveOptions) (bytes : Bytes)
      (db : Database Nat) (fuel : Nat) (ops ops' : List (Op Nat)) (q : DynKey)
      (c c' : Config Nat), C.RoundTrip → runOps schema fuel init ops = some c →
        (∀ op ∈ ops, op.OnDatabase) →
          c.world.database.saveCacheWithOptions o C ingredients options = .ok bytes →
            (Database.new 1).loadCache C o' ingredients (.read bytes) = (.ok true, db) →
              runOps schema fuel ((start 0).reload db) (ops' ++ [.access 0 q true]) = some c' →
                (∀ op ∈ ops', op.OnDatabase) → (∀ e ∈ c'.world.log, e.isMissing = false) →
                  ∃ r, c'.lastResult = some r ∧
                    Agrees schema body c'.world ((c'.world.inputs 0).get) q r := by
  intro h
  have hrun : (runOps schema 60 init program).any (fun c =>
      c.world.database.saveCacheWithOptions order longItem ingredients options = .ok [] ∧
        (load longItem).1 = .ok true ∧
        (runOps schema 60 ((start 0).reload (load longItem).2) [.access 0 total true]).any
          fun c' => (∀ e ∈ c'.world.log, e.isMissing = false) ∧
            c'.lastResult = some (.ok (5, 2)) ∧
            evaluate (slotsEnv schema body c'.world ((c'.world.inputs 0).get)) (faults schema) 3 []
              total = some (.error (.cache "no value"))) := by decide +kernel
  obtain ⟨c, hc, hsaved⟩ := (Option.any_eq_true ..).mp hrun
  obtain ⟨hsave, hload, hlast⟩ := of_decide_eq_true hsaved
  obtain ⟨c', hc', hlast⟩ := (Option.any_eq_true ..).mp hlast
  obtain ⟨hmissing, hresult, heval⟩ := of_decide_eq_true hlast
  obtain ⟨r, hr, hagrees⟩ := h longItem order order options [] _ 60 program [] total c c'
    (Codec.roundTrip_ofTable _) hc program_on_database hsave (Prod.ext hload rfl) hc' nofun hmissing
  rw [hresult] at hr
  cases hr
  have hold := (hagrees.ok 5).mp ⟨2, rfl⟩
  cases hold.functional ⟨3, heval⟩

open Dropped in
open RoundTrip (item ingredients) in
open Computed (total body) in
open Reused (schema) in
/-- The record of another slot is skipped: the total is right, and is right when the item is set
again. -/
theorem unrelated_slot_is_dropped :
    ∃ c c' r,
      Trans.Steps (step schema) (fun c l _ => l.OnDatabase ∧ c.Asked .values l) init steps c ∧
      c.world.database.saveCacheWithOptions order longOther ingredients options = .ok [] ∧
        c.world.inputs 0 other ≠ none ∧ (load longOther).2.inputs other = none ∧
          runOps schema 60 ((start 0).reload (load longOther).2)
              ([.mutate 0 item (some 9)] ++ [.access 0 total true]) = some c' ∧
            c'.lastResult = some r ∧
              Agrees schema body c'.world ((c'.world.inputs 0).get) total r := by
  have hrun : (Trans.run (fun c l => if c.promptly l then step schema c l else none) init
      steps).any (fun c =>
        c.world.database.saveCacheWithOptions order longOther ingredients options = .ok [] ∧
          c.world.inputs 0 item = some ⟨some 5, 1⟩ ∧ c.world.inputs 0 other ≠ none ∧
          (load longOther).1 = .ok true ∧ (load longOther).2.inputs other = none ∧
          (runOps schema 60 ((start 0).reload (load longOther).2)
            ([.mutate 0 item (some 9)] ++ [.access 0 total true])).any
              fun c' => ∀ e ∈ c'.world.log, e.isMissing = false) := by decide +kernel
  obtain ⟨c, hc, hsaved⟩ := (Option.any_eq_true ..).mp hrun
  obtain ⟨hsave, hitem, hother, hload, hgone, hlast⟩ := of_decide_eq_true hsaved
  obtain ⟨c', hc', hmissing⟩ := (Option.any_eq_true ..).mp hlast
  have honline : ∀ l ∈ steps, l.OnDatabase := by
    intro l hl
    rcases List.mem_append.mp hl with hl | hl
    · simp only [List.mem_cons, List.not_mem_nil, or_false] at hl
      rcases hl with rfl | rfl | rfl <;> rfl
    · rw [List.eq_of_mem_replicate hl]
      trivial
  have hsteps : Trans.Steps (step schema) (fun c l _ => l.OnDatabase ∧ c.Asked .values l) init
      steps c :=
    (Trans.Steps.of_checked_run _ hc).mono fun m l _ ⟨hmem, hcheck⟩ =>
      ⟨honline l hmem, asked_of_promptly hcheck⟩
  obtain ⟨r, hr, hagrees⟩ := cut_cache_is_coherent (fun _ _ => rfl) Reused.propagates
    (Codec.roundTrip_ofTable _) hsteps hsave (Prod.ext hload rfl) (intact_longOther hitem) hc'
    (fun op hop => List.mem_singleton.mp hop ▸ rfl) (of_decide_eq_true hmissing)
  exact ⟨c, c', r, hsteps, hsave, hother, hgone, hc', hr, hagrees⟩

end Picante

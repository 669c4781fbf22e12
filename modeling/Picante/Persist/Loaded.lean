/-
# A loaded database

What a load leaves in place of a database: its identity is kept (`Spares`), and when the file is
one that was saved for the same ingredients, and both databases have nothing but these
(`Within`), it holds what the saved one did and nothing else (`Restored`).

The values of the saved database were right over its own slots, and its change stamps honest
about its own past.  So the loaded database is coherent, with the past of the *saved* one
(`coherent_loaded`): as long as no record of another past is left in the shared cache, and the
entries of the registry are out of reach.
-/
import Picante.Consistency
import Picante.Forgetting
import Picante.Persist.Rejected
import Picante.Persist.RoundTrip

namespace Picante

open Config

variable {V : Type}

/-! ## 1. What a load leaves alone -/

/-- What a runtime is known by: its family, whether it is a snapshot, and its private scope. -/
def Runtime.identity (r : Runtime) : RuntimeId × Bool × RuntimeId :=
  (r.id, r.isSnapshot, r.divergentScope)

/-- What is not listed is as it was, and so is the identity. -/
structure Database.Spares (ingredients : List PersistableIngredient) (db db' : Database V) :
    Prop where
  inputs : ∀ q, (∀ i ∈ ingredients, i.sectionType = .input → i.kind ≠ q.kind) →
    db'.inputs q = db.inputs q
  cells : ∀ q, (∀ i ∈ ingredients, i.sectionType = .derived → i.kind ≠ q.kind) →
    db'.cells q = db.cells q
  interned : ∀ kind, (∀ i ∈ ingredients, i.sectionType = .interned → i.kind ≠ kind) →
    db'.interned kind = db.interned kind
  identity : db'.runtime.identity = db.runtime.identity

namespace Database

variable {ingredients : List PersistableIngredient} {db db' db'' : Database V}

theorem Spares.refl (db : Database V) : Spares ingredients db db :=
  ⟨fun _ _ => rfl, fun _ _ => rfl, fun _ _ => rfl, rfl⟩

theorem Spares.trans (h : Spares ingredients db db') (h' : Spares ingredients db' db'') :
    Spares ingredients db db'' where
  inputs q hq := (h'.inputs q hq).trans (h.inputs q hq)
  cells q hq := (h'.cells q hq).trans (h.cells q hq)
  interned kind hk := (h'.interned kind hk).trans (h.interned kind hk)
  identity := h'.identity.trans h.identity

theorem spares_clear {i : PersistableIngredient} (hi : i ∈ ingredients) (db : Database V) :
    Spares ingredients db (db.clear i) := by
  unfold clear
  cases htype : i.sectionType with
  | input =>
    refine ⟨fun q hq => if_neg fun heq => hq i hi htype heq.symm, fun _ _ => rfl,
      fun _ _ => rfl, rfl⟩
  | derived =>
    refine ⟨fun _ _ => rfl, fun q hq => if_neg fun heq => hq i hi htype heq.symm,
      fun _ _ => rfl, rfl⟩
  | interned =>
    refine ⟨fun _ _ => rfl, fun _ _ => rfl, fun kind hk => ?_, rfl⟩
    exact Function.update_of_ne (hk i hi htype).symm ..

theorem spares_cleared (db : Database V) : Spares ingredients db (db.cleared ingredients) := by
  have hfold : ∀ (rest : List PersistableIngredient) (db : Database V),
      (∀ i ∈ rest, i ∈ ingredients) → Spares ingredients db (rest.foldl clear db) := by
    intro rest
    induction rest with
    | nil => exact fun db _ => .refl db
    | cons i rest ih =>
      intro db hsub
      obtain ⟨hi, hrest⟩ := List.forall_mem_cons.mp hsub
      exact (spares_clear hi db).trans (ih _ hrest)
  have hgraph : Spares ingredients db { db with runtime := db.runtime.clearDependencyGraph } :=
    ⟨fun _ _ => rfl, fun _ _ => rfl, fun _ _ => rfl, rfl⟩
  exact hgraph.trans (hfold ingredients _ fun _ hi => hi)

theorem loadInputs_ne {C : Codec V} {kind : QueryKindId} {inputs : Inputs V}
    {records : List Bytes} {q : DynKey} (hq : kind ≠ q.kind) :
    (loadInputs C kind inputs records).2 q = inputs q := by
  induction records generalizing inputs with
  | nil => rfl
  | cons bytes rest ih =>
    unfold loadInputs
    split
    · rfl
    · rw [ih, Function.update_of_ne]
      rintro rfl
      exact hq rfl

theorem loadDerived_ne {C : Codec V} {kind : QueryKindId} {cells : DynKey → ErasedCell V}
    {records : List Bytes} {q : DynKey} (hq : kind ≠ q.kind) :
    (loadDerived C kind cells records).2 q = cells q := by
  induction records generalizing cells with
  | nil => rfl
  | cons bytes rest ih =>
    unfold loadDerived
    split
    · rfl
    · rw [ih, Function.update_of_ne]
      rintro rfl
      exact hq rfl

variable [DecidableEq V]

theorem spares_loadRecords {C : Codec V} {i : PersistableIngredient} (hi : i ∈ ingredients)
    (db : Database V) (records : List Bytes) :
    Spares ingredients db (db.loadRecords C i records).2 := by
  unfold loadRecords
  cases htype : i.sectionType with
  | input =>
    exact ⟨fun q hq => loadInputs_ne (hq i hi htype), fun _ _ => rfl, fun _ _ => rfl, rfl⟩
  | derived =>
    exact ⟨fun _ _ => rfl, fun q hq => loadDerived_ne (hq i hi htype), fun _ _ => rfl, rfl⟩
  | interned =>
    refine ⟨fun _ _ => rfl, fun _ _ => rfl, fun kind hk => ?_, rfl⟩
    exact Function.update_of_ne (hk i hi htype).symm ..

theorem spares_loadSections {C : Codec V} (sections : List Section) (db : Database V) :
    Spares ingredients db (db.loadSections C ingredients sections).2 := by
  induction sections generalizing db with
  | nil => exact .refl db
  | cons s rest ih =>
    unfold loadSections
    split
    · exact ih db
    · next i hfind =>
      have hi : i ∈ ingredients := List.mem_of_find?_eq_some hfind
      split
      · exact .refl db
      · split
        · exact .refl db
        · have hload := spares_loadRecords (C := C) hi db s.records
          split
          · next heq =>
            rw [heq] at hload
            exact hload
          · next heq =>
            rw [heq] at hload
            exact hload.trans (ih _)

theorem spares_restored (o : Order) (rev : Revision) (db : Database V) :
    Spares ingredients db (db.restored o ingredients rev) := by
  obtain ⟨hext, -⟩ := extends_restoreRuntimeState (o := o) ingredients db
  refine ⟨fun q _ => congrFun hext.inputs q, fun q _ => congrFun hext.cells q,
    fun kind _ => congrFun hext.interned kind, ?_⟩
  have hid := congrArg Runtime.identity hext.runtime
  exact hid

/-- **A load leaves what is not listed alone**, whatever comes of it, and the identity. -/
theorem spares_loadCacheWithOptions {C : Codec V} {o : Order} (options : CacheLoadOptions)
    (file : FileRead) (db : Database V) :
    Spares ingredients db (db.loadCacheWithOptions C o ingredients options file).database := by
  have hinner : Spares ingredients db
      (db.loadCacheInner C o ingredients options.maxBytes file).2 := by
    unfold loadCacheInner
    split
    · exact .refl db
    · exact .refl db
    · next cache _ =>
      have hload : Spares ingredients db
          ((db.cleared ingredients).loadSections C ingredients cache.sections).2 :=
        (spares_cleared db).trans (spares_loadSections cache.sections _)
      split
      · next heq =>
        rw [heq] at hload
        exact hload
      · next heq =>
        rw [heq] at hload
        exact hload.trans (spares_restored o _ _)
  unfold loadCacheWithOptions
  split
  · next heq =>
    rw [heq] at hinner
    exact hinner
  · next heq =>
    rw [heq] at hinner
    cases options.onCorrupt <;> exact hinner

theorem spares_loadCache {C : Codec V} {o : Order} {file : FileRead} {b : PicanteResult Bool}
    (h : db.loadCache C o ingredients file = (b, db')) : Spares ingredients db db' := by
  have hdb : (db.loadCacheWithOptions C o ingredients .default file).database = db' :=
    congrArg Prod.snd h
  exact hdb ▸ spares_loadCacheWithOptions .default file db

end Database

/-! ## 2. A whole database -/

/-- The database has nothing but the listed ingredients. -/
structure Database.Within (ingredients : List PersistableIngredient) (db : Database V) : Prop where
  inputs : ∀ q, db.inputs q ≠ none → ∃ i ∈ ingredients, i.sectionType = .input ∧ i.kind = q.kind
  cells : ∀ q, db.cells q ≠ .new → ∃ i ∈ ingredients, i.sectionType = .derived ∧ i.kind = q.kind
  interned : ∀ kind, db.interned kind ≠ .empty →
    ∃ i ∈ ingredients, i.sectionType = .interned ∧ i.kind = kind

namespace Database.Within

variable {ingredients : List PersistableIngredient} {db : Database V} (h : db.Within ingredients)
include h

/-- A part that is not listed is blank. -/
theorem inputs_none {q : DynKey}
    (hq : ¬ ∃ i ∈ ingredients, i.sectionType = .input ∧ i.kind = q.kind) : db.inputs q = none := by
  by_contra hne
  exact hq (h.inputs q hne)

theorem cells_new {q : DynKey}
    (hq : ¬ ∃ i ∈ ingredients, i.sectionType = .derived ∧ i.kind = q.kind) :
    db.cells q = .new := by
  by_contra hne
  exact hq (h.cells q hne)

theorem interned_empty {kind : QueryKindId}
    (hk : ¬ ∃ i ∈ ingredients, i.sectionType = .interned ∧ i.kind = kind) :
    db.interned kind = .empty := by
  by_contra hne
  exact hk (h.interned kind hne)

omit h in
/-- A load brings nothing that is not listed. -/
theorem spared (h : db.Within ingredients) {db' : Database V}
    (hs : Database.Spares ingredients db db') : db'.Within ingredients := by
  refine ⟨fun q hq => ?_, fun q hq => ?_, fun kind hk => ?_⟩
  · by_contra hno
    refine hq ((hs.inputs q fun i hi htype hkind => hno ⟨i, hi, htype, hkind⟩).trans ?_)
    exact h.inputs_none hno
  · by_contra hno
    refine hq ((hs.cells q fun i hi htype hkind => hno ⟨i, hi, htype, hkind⟩).trans ?_)
    exact h.cells_new hno
  · by_contra hno
    refine hk ((hs.interned kind fun i hi htype hkind => hno ⟨i, hi, htype, hkind⟩).trans ?_)
    exact h.interned_empty hno

end Database.Within

/-- `db'` holds what `db` did, with the identity of `db₁`: cells that were not ready are new. -/
structure Restored (db db₁ db' : Database V) : Prop where
  revision : db'.runtime.currentRevision = db.runtime.currentRevision
  inputs : ∀ q, db'.inputs q = db.inputs q
  cells : ∀ q, db'.cells q = (db.cells q).restored
  byId : ∀ kind, (db'.interned kind).byId = (db.interned kind).byId
  byValue : ∀ kind, (db'.interned kind).byValue = (db.interned kind).byValue
  fresh : ∀ kind, (db'.interned kind).Fresh
  identity : db'.runtime.identity = db₁.runtime.identity

section whole

variable [DecidableEq V] {C : Codec V} {o o' : Order} {ingredients : List PersistableIngredient}
  {db db₁ db' : Database V} {bytes : Bytes}

/-- **A saved database is restored by loading it**, and nothing else is left. -/
theorem restored_loadCache (hC : C.RoundTrip) (ho : o.Lists db) (ho' : o'.Lists db)
    (hinv : ∀ kind, (db.interned kind).Inverse) (hin : db.Within ingredients)
    (hin₁ : db₁.Within ingredients) (hsave : db.saveCache o C ingredients = .ok bytes)
    (hload : db₁.loadCache C o' ingredients (.read bytes) = (.ok true, db')) :
    Restored db db₁ db' := by
  have hother : ∀ q, (∀ i ∈ ingredients, i.sectionType = .derived → i.kind ≠ q.kind) →
      (db₁.cells q).state.record = none := by
    intro q hq
    rw [hin₁.cells_new fun ⟨i, hi, htype, hkind⟩ => hq i hi htype hkind]
    rfl
  obtain ⟨db'', hload', hr⟩ := loadCache_saved hC ho ho' hinv hsave hother
  obtain rfl : db' = db'' := congrArg Prod.snd (hload.symm.trans hload')
  have hspares := Database.spares_loadCache hload
  have unlisted : ∀ {t : SectionType} {kind : QueryKindId},
      (¬ ∃ i ∈ ingredients, i.sectionType = t ∧ i.kind = kind) →
        ∀ i ∈ ingredients, i.sectionType = t → i.kind ≠ kind :=
    fun hno i hi htype hkind => hno ⟨i, hi, htype, hkind⟩
  have hinterned : ∀ kind, (db'.interned kind).byId = (db.interned kind).byId ∧
      (db'.interned kind).byValue = (db.interned kind).byValue ∧ (db'.interned kind).Fresh := by
    intro kind
    by_cases hlist : ∃ i ∈ ingredients, i.sectionType = .interned ∧ i.kind = kind
    · obtain ⟨i, hi, htype, rfl⟩ := hlist
      have hp := hr.parts i hi
      unfold PartRestored at hp
      rw [htype] at hp
      obtain ⟨hid, hval, hbound⟩ := hp
      refine ⟨hid, hval, fun id hle => ?_⟩
      cases hv : (db'.interned i.kind).byId id with
      | none => rfl
      | some v => exact absurd (hbound id v hv) (Nat.not_lt_of_le hle)
    · rw [hspares.interned kind (unlisted hlist), hin₁.interned_empty hlist,
        hin.interned_empty hlist]
      exact ⟨rfl, rfl, InternedIngredient.fresh_empty⟩
  refine ⟨hr.revision, fun q => ?_, fun q => ?_, fun kind => (hinterned kind).1,
    fun kind => (hinterned kind).2.1, fun kind => (hinterned kind).2.2, hspares.identity⟩
  · by_cases hlist : ∃ i ∈ ingredients, i.sectionType = .input ∧ i.kind = q.kind
    · obtain ⟨i, hi, htype, hkind⟩ := hlist
      have hp := hr.parts i hi
      unfold PartRestored at hp
      rw [htype, hkind] at hp
      exact hp q.key
    · rw [hspares.inputs q (unlisted hlist), hin₁.inputs_none hlist, hin.inputs_none hlist]
  · by_cases hlist : ∃ i ∈ ingredients, i.sectionType = .derived ∧ i.kind = q.kind
    · obtain ⟨i, hi, htype, hkind⟩ := hlist
      have hp := hr.parts i hi
      unfold PartRestored at hp
      rw [htype, hkind] at hp
      exact hp q.key
    · rw [hspares.cells q (unlisted hlist), hin₁.cells_new hlist, hin.cells_new hlist]
      rfl

end whole

/-! ## 3. A lone database -/

/-- Puts another database in the place of the database; the log, which is for the proofs only,
starts anew. -/
def World.reload (w : World V) (db : Database V) : World V := { w.withDatabase db with log := [] }

theorem World.views_reload (w : World V) (db : Database V) : (w.reload db).views 0 = db.toView := by
  simp [reload, withDatabase]

theorem World.database_reload (w : World V) (db : Database V) : (w.reload db).database = db := by
  unfold database
  rw [w.views_reload]
  rfl

/-- There are no snapshots, and the database and the shared cache know only the first runtime. -/
structure World.Lone (w : World V) : Prop where
  viewCount : w.viewCount = 1
  others : ∀ i, i ≠ 0 → w.views i = (World.init : World V).views i
  identity : (w.views 0).runtime.identity = (1, false, 0)
  scopes : ∀ s q, s ≠ 1 → w.shared s q = none

namespace World.Lone

variable {w : World V} (h : w.Lone)
include h

theorem origin : w.origin 0 = (1, false) := by
  obtain ⟨hid, hsnap, -⟩ : (w.views 0).runtime.id = 1 ∧ (w.views 0).runtime.isSnapshot = false ∧
      (w.views 0).runtime.divergentScope = 0 := by simpa [Runtime.identity] using h.identity
  simp only [World.origin, hid, hsnap]

theorem scope (i : ViewId) : w.scope i = 1 := by
  rcases eq_or_ne i 0 with rfl | hi
  · obtain ⟨hid, -, hdiv⟩ : (w.views 0).runtime.id = 1 ∧ (w.views 0).runtime.isSnapshot = false ∧
        (w.views 0).runtime.divergentScope = 0 := by simpa [Runtime.identity] using h.identity
    simp [World.scope, Runtime.cacheScopeId, hid, hdiv]
  · unfold World.scope
    rw [h.others i hi]
    rfl

/-- Another database takes its place. -/
theorem reload {db : Database V} (hid : db.runtime.identity = w.database.runtime.identity) :
    (w.reload db).Lone where
  viewCount := h.viewCount
  others i hi := (Function.update_of_ne hi ..).trans (h.others i hi)
  identity := by
    rw [w.views_reload]
    exact hid.trans h.identity
  scopes := h.scopes

end World.Lone

/-! ## 4. A loaded database is coherent -/

section coherent

variable {T : Spec V} {p : Past V} {w w₁ : World V} {db : Database V}

/-- What a restored cell holds, if it is ready. -/
theorem ErasedCell.ready_of_restored {c : ErasedCell V} {R : ReadyRecord V}
    (h : c.restored.state = .ready R) (hn : ∀ R', c.state = .ready R' → R'.foreign = false) :
    c.state = .ready R := by
  unfold restored at h
  cases hs : c.state with
  | ready R' =>
    have hf := hn R' hs
    simp only [hs, ErasedState.record, newReady, ErasedState.ready.injEq] at h
    rw [← h, ← hf]
  | vacant | running _ _ | poisoned _ _ =>
    simp only [hs, ErasedState.record] at h
    cases h

theorem ErasedCell.not_poisoned_of_restored {c : ErasedCell V} {e : PicanteError}
    {ver : Revision} : c.restored.state ≠ .poisoned e ver := by
  unfold restored
  cases c.state.record <;> nofun

/-- `w'` has in its views what was saved of `w`, and nothing in the shared cache and the
registry. -/
structure World.Reloaded (w w' : World V) : Prop where
  viewCount : w'.viewCount = 1
  origin : w'.origin 0 = (1, false)
  scope : ∀ i, w'.scope i = 1
  rev : ∀ i, w'.rev i = w.rev i
  inputs : ∀ i, w'.inputs i = w.inputs i
  ready : ∀ i q R, w'.state i q = .ready R → w.state i q = .ready R
  poisoned : ∀ i q e ver, w'.state i q ≠ .poisoned e ver
  interned : ∀ kind, (w'.interned kind).byId = (w.interned kind).byId
  fresh : ∀ kind, (w'.interned kind).Fresh
  shared : ∀ s q, w'.shared s q = none
  entries : ∀ e, w'.registry.entries e = Registry.empty.entries e
  filed : ∀ key, w'.registry.filed key = none
  log : w'.log = []

/-- **A saved database, loaded**: once the entries of the registry are forgotten, the world is
what was saved and nothing else. -/
theorem reloaded_of_restored (hn : w.Native) (hw : w.Lone) (hw₁ : w₁.Lone)
    (hr : Restored w.database w₁.database db) (hshared : ∀ q, w₁.shared (w₁.scope 0) q = none)
    (hunmade : w₁.registry.Unmade) (hfiled : ∀ key, w₁.registry.filed key = none) :
    w.Reloaded ((w₁.reload db).forget w₁.registry.nextEntry) := by
  have hlone : (w₁.reload db).Lone := hw₁.reload hr.identity
  have hview := w₁.views_reload db
  have hothers : ∀ i, i ≠ 0 → (w₁.reload db).views i = w.views i := fun i hi =>
    (hlone.others i hi).trans (hw.others i hi).symm
  have hcell : ∀ q, (w₁.reload db).cell 0 q = (w.cell 0 q).restored := by
    intro q
    unfold World.cell
    rw [hview]
    exact hr.cells q
  constructor
  · exact hw₁.viewCount
  · exact hlone.origin
  · exact hlone.scope
  · intro i
    show (w₁.reload db).rev i = w.rev i
    unfold World.rev
    rcases eq_or_ne i 0 with rfl | hi
    · rw [hview]
      exact hr.revision
    · rw [hothers i hi]
  · intro i
    show (w₁.reload db).inputs i = w.inputs i
    unfold World.inputs
    rcases eq_or_ne i 0 with rfl | hi
    · rw [hview]
      exact funext hr.inputs
    · rw [hothers i hi]
  · intro i q R hs
    have hs' : ((w₁.reload db).cell i q).state = .ready R := hs
    rcases eq_or_ne i 0 with rfl | hi
    · rw [hcell] at hs'
      refine ErasedCell.ready_of_restored hs' fun R' hR' => ?_
      exact (hn.ready (q := q) hR').foreign
    · unfold World.cell at hs'
      rw [hothers i hi] at hs'
      exact hs'
  · intro i q e ver hs
    have hs' : ((w₁.reload db).cell i q).state = .poisoned e ver := hs
    rcases eq_or_ne i 0 with rfl | hi
    · rw [hcell] at hs'
      exact ErasedCell.not_poisoned_of_restored hs'
    · unfold World.cell at hs'
      rw [hothers i hi, hw.others i hi] at hs'
      cases hs'
  · exact hr.byId
  · exact hr.fresh
  · intro s q
    show w₁.shared s q = none
    rcases eq_or_ne s 1 with rfl | hs
    · rw [← hw₁.scope 0]
      exact hshared q
    · exact hw₁.scopes s q hs
  · intro e
    show (w₁.registry.forget _).entries e = _
    unfold Registry.forget
    rcases Nat.lt_or_ge e w₁.registry.nextEntry with hlt | hge
    · exact if_pos hlt
    · exact (if_neg (Nat.not_lt_of_le hge)).trans (hunmade e hge)
  · exact hfiled
  · rfl

section reloaded

variable {w' : World V}

theorem World.Reloaded.internedAt (hr : w.Reloaded w') (S : Schema V) (k : DynKey) :
    w'.internedAt S k = w.internedAt S k := by
  simp only [World.internedAt, hr.interned]

theorem World.Reloaded.env (hr : w.Reloaded w') (content : Contents V) :
    T.env w' content = T.env w content := by
  simp only [Spec.env, hr.internedAt]

theorem World.Reloaded.told (hr : w.Reloaded w') : T.told p w' = T.told p w := by
  funext d r
  simp only [Spec.told, hr.internedAt]

theorem World.Reloaded.native (hr : w.Reloaded w') (hn : w.Native) : w'.Native where
  state q := by
    cases hs : w'.state 0 q with
    | ready R =>
      rw [hr.rev]
      exact hn.ready (hr.ready 0 q R hs)
    | vacant | running _ _ | poisoned _ _ => trivial
  shared s q F hF := by
    rw [hr.shared] at hF
    cases hF
  leaders e := by
    rw [hr.entries]
    rfl
  entries e := by
    rw [hr.entries]
    trivial
  log e he := by
    rw [hr.log] at he
    cases he

/-- **What was coherent when it was saved is so once it is loaded**, with the past it had. -/
theorem coherent_of_reloaded (h : T.Coherent p w) (hr : w.Reloaded w') : T.Coherent p w' := by
  have hright : ∀ r q a, T.Right p w r q a → T.Right p w' r q a := by
    intro r q a ha
    unfold Spec.Right
    rw [hr.env]
    exact ha
  have hnone : ∀ q r, w'.NoOlder q r := by
    intro q r F hF
    rw [hr.shared] at hF
    cases hF
  constructor
  case nonempty => exact hr.viewCount ▸ Nat.one_pos
  case live => rw [hr.origin]
  case family => exact fun i => (hr.scope i).trans (congrArg Prod.fst hr.origin).symm
  case settled_le => exact hr.rev 0 ▸ h.settled_le
  case snapshot_le => exact fun i hi => hr.rev i ▸ h.snapshot_le i hi
  case interned => exact hr.fresh
  case touch_le =>
    intro i k
    rw [hr.inputs, hr.rev]
    exact h.touch_le i k
  case steady =>
    intro i k r
    rw [hr.inputs, hr.rev]
    exact h.steady i k r
  case ready =>
    intro i q R hs
    have hok := h.ready i q R (hr.ready i q R hs)
    refine ⟨hok.changed_le, hok.settled, hr.rev i ▸ hok.verified_le, fun heq => ?_, ?_, ?_⟩
    · rw [hr.rev] at heq ⊢
      exact hright _ _ _ (hok.right heq)
    · exact hr.rev i ▸ hok.honest
    · intro hf
      obtain ⟨s, obs, hc, hs', hdeps, hfollows, hrec⟩ := hok.evidence hf
      exact ⟨s, obs, hc, hs', hdeps, hfollows, hr.told ▸ hrec⟩
  case poisoned => exact fun i q e ver hs => absurd hs (hr.poisoned i q e ver)
  case shared =>
    intro q F hF
    rw [hr.shared] at hF
    cases hF
  case entries =>
    intro e
    rw [hr.entries]
    trivial
  case filed =>
    intro key e hf
    rw [hr.filed] at hf
    cases hf
  case ready_answered =>
    intro q R hs hver
    rw [hr.rev] at hver ⊢
    exact h.ready_answered q R (hr.ready 0 q R hs) hver
  case poison_answered => exact fun _ q e hs => absurd hs (hr.poisoned 0 q e _)
  case answered =>
    intro q r a ha
    obtain ⟨hle, out, hout, -⟩ := h.answered q r a ha
    exact ⟨hle, out, hout, .inr (hnone q r)⟩
  case current =>
    intro q a ha
    rw [hr.rev] at ha ⊢
    obtain ⟨hr', hcur⟩ := h.current q a ha
    exact ⟨hright _ _ _ hr', fun R hs => hcur R (hr.ready 0 q R hs)⟩

end reloaded

end coherent

end Picante

/-
# Loading into a database that was used

`load_cache` replaces what the ingredients hold and sets the revision, but the runtime keeps its
identity, and the shared cache, which is the process's, keeps the records filed under it.

* `loaded_database_is_consistent` -- where none is filed under it at any load, a load may come at
  any time: what an access returns after it is what the evaluation without a cache returns.
* `record_of_another_past` -- a record that was left there is taken for one of the new past, as
  soon as the revisions meet.

The database may have been used in any way before (`Used`): operations one after another, and
loads of any file with any outcome.  The file is one that such a database has saved (`Session`).
-/
import Picante.Persist.Loaded

namespace Picante

open Config

variable {V : Type}

/-! ## 1. A database on its own -/

/-- The ingredients are all those of the schema that hold slots or cells. -/
structure Schema.ListedBy (S : Schema V) (ingredients : List PersistableIngredient) : Prop where
  inputs : ∀ kind, S.sectionType kind = .input →
    ∃ i ∈ ingredients, i.sectionType = .input ∧ i.kind = kind
  derived : ∀ kind, S.sectionType kind = .derived →
    ∃ i ∈ ingredients, i.sectionType = .derived ∧ i.kind = kind

/-- An operation on the database, with its ingredients, other than making a snapshot. -/
def Label.Lone (ingredients : List PersistableIngredient) : Label V → Prop
  | .snapshot => False
  | .intern kind _ => ∃ i ∈ ingredients, i.sectionType = .interned ∧ i.kind = kind
  | l => l.OnDatabase

def Config.Op.Lone (ingredients : List PersistableIngredient) (op : Op V) : Prop :=
  op.label.Lone ingredients

theorem Label.Lone.onDatabase {ingredients : List PersistableIngredient} {l : Label V}
    (h : l.Lone ingredients) : l.OnDatabase := by
  cases l <;> first | exact h | trivial

section lone

variable {w w' : World V}

/-- The database itself changes, and keeps its identity. -/
theorem World.Lone.modifyView (h : w.Lone) {f : View V → View V}
    (hf : (f (w.views 0)).runtime.identity = (w.views 0).runtime.identity) :
    (w.modifyView 0 f).Lone where
  viewCount := h.viewCount
  others i hi := (Function.update_of_ne hi ..).trans (h.others i hi)
  identity := by
    simp only [World.modifyView, Function.update_self]
    exact hf.trans h.identity
  scopes := h.scopes

theorem World.Lone.modifyRuntime (h : w.Lone) {f : Runtime → Runtime}
    (hf : (f (w.views 0).runtime).identity = (w.views 0).runtime.identity) :
    (w.modifyRuntime 0 f).Lone := h.modifyView hf

/-- Something else than the views and the shared cache changes. -/
theorem World.Lone.of_eq (h : w.Lone) (hcount : w'.viewCount = w.viewCount)
    (hviews : w'.views = w.views) (hshared : w'.shared = w.shared) : w'.Lone where
  viewCount := hcount.trans h.viewCount
  others i hi := by
    rw [hviews]
    exact h.others i hi
  identity := by
    rw [hviews]
    exact h.identity
  scopes s q hs := by
    rw [hshared]
    exact h.scopes s q hs

theorem World.Lone.logged (h : w.Lone) (e : Event) : (w.logged e).Lone := h.of_eq rfl rfl rfl

theorem Touched.lone {a a' : Activation V} {src : Source V} {rest : List Dep}
    {r : PicanteResult Revision} (h : Touched w 0 a src rest r w' a') (hw : w.Lone) : w'.Lone := by
  cases h with
  | unchanged _ => exact hw
  | changed _ | failed => exact hw.logged _

variable [DecidableEq V] {S : Schema V} {task : TaskId} {below : List (Activation V)}
  {a : Activation V} {m : Move V}

theorem ActStep.lone (h : ActStep S w 0 task below a w' m) (hw : w.Lone) : w'.Lone := by
  cases h with
  | touchInput _ _ ht | touchInterned _ _ _ ht => exact ht.lone hw
  | accept _ | unregistered _ _ | readMissing _ _ _ | readCycle _ _ _ => exact hw.logged _
  | touchMissing _ _ _ | touchCycle _ _ _ => exact (hw.logged _).logged _
  | reverify _ _ | start _ _ | followReset _ | setCell _ | notifyCell _ | updateDeps _ =>
    exact hw.modifyView rfl
  | sharedMiss _ hlook _ =>
    rcases hlook with rfl | rfl
    · exact hw.of_eq rfl rfl rfl
    · refine ⟨hw.viewCount, hw.others, hw.identity, fun s q hs => ?_⟩
      show (w.evictShared (w.scope 0) a.key).shared s q = none
      rw [World.shared_evictShared]
      split
      · rfl
      · exact hw.scopes s q hs
  | putShared _ =>
    refine ⟨hw.viewCount, hw.others, hw.identity, fun s q hs => ?_⟩
    rw [World.shared_putShared, if_neg fun h => hs (h.1.trans (hw.scope 0))]
    exact hw.scopes s q hs
  | _ => exact hw.of_eq rfl rfl rfl

omit [DecidableEq V] in
theorem Resumed.lone {p p' : Activation V} {r : AccessResult V} (h : Resumed w 0 p r w' p')
    (hw : w.Lone) : w'.Lone := by
  cases h with
  | touched _ ht => exact ht.lone hw
  | answered _ | idle _ => exact hw

theorem World.Lone.mutate (h : w.Lone) (k : DynKey) (v : Option V) :
    (mutateWorld w 0 k v).Lone := by
  unfold mutateWorld
  split
  · exact h
  · have hbump : (w.modifyRuntime 0 (·.bumpRevision)).Lone := h.modifyRuntime rfl
    have hlive := congrArg Prod.snd hbump.origin
    have hdiv := hbump.modifyRuntime
      (congrArg Runtime.identity (Runtime.markDivergent_of_live hlive w.nextRuntimeId))
    have hdiv' : ((w.modifyRuntime 0 (·.bumpRevision)).markDivergent 0).Lone :=
      hdiv.of_eq rfl rfl rfl
    exact hdiv'.modifyView rfl

end lone

/-- What the database has changed in is listed. -/
theorem Database.Within.step {ingredients : List PersistableIngredient} {db db' : Database V}
    (h : db.Within ingredients)
    (hinputs : ∀ q, db'.inputs q = db.inputs q ∨
      ∃ i ∈ ingredients, i.sectionType = .input ∧ i.kind = q.kind)
    (hcells : ∀ q, db'.cells q = db.cells q ∨
      ∃ i ∈ ingredients, i.sectionType = .derived ∧ i.kind = q.kind)
    (hinterned : ∀ kind, db'.interned kind = db.interned kind ∨
      ∃ i ∈ ingredients, i.sectionType = .interned ∧ i.kind = kind) : db'.Within ingredients where
  inputs q hq := (hinputs q).elim (fun heq => h.inputs q (heq ▸ hq)) id
  cells q hq := (hcells q).elim (fun heq => h.cells q (heq ▸ hq)) id
  interned kind hk := (hinterned kind).elim (fun heq => h.interned kind (heq ▸ hk)) id

/-- The database is on its own, with its ingredients, and the accesses are all on it. -/
structure Own (S : Schema V) (ingredients : List PersistableIngredient) (c : Config V) :
    Prop where
  lone : c.world.Lone
  within : c.world.database.Within ingredients
  views : ∀ t, c.Pending t → (c.tasks t).view = 0
  keys : ∀ t, ∀ a ∈ (c.tasks t).stack, S.sectionType a.key.kind = .derived

/-- Between two operations of a database on its own. -/
structure Quiet (S : Schema V) (ingredients : List PersistableIngredient) (c : Config V) :
    Prop where
  idle : c.Idle
  mutators : c.mutators = []
  led : Led c
  own : Own S ingredients c

section quiet

variable [DecidableEq V] {S : Schema V} {ingredients : List PersistableIngredient} {fuel : Nat}
  {c c' : Config V} {op : Op V}

theorem ActStep.within {w w' : World V} {task : TaskId} {below : List (Activation V)}
    {a : Activation V} {m : Move V} (h : ActStep S w 0 task below a w' m)
    (hlist : S.ListedBy ingredients) (hkey : S.sectionType a.key.kind = .derived)
    (hw : w.database.Within ingredients) : w'.database.Within ingredients := by
  refine hw.step (fun q => .inl ?_) (fun q => ?_) fun kind => .inl (congrFun h.fixed.interned kind)
  · exact congrFun (h.fixed.inputs 0) q
  · by_cases hq : q = a.key
    · exact .inr (hq ▸ hlist.derived _ hkey)
    · exact .inl (h.cell_other fun hk => hq hk.2)

omit [DecidableEq V] in
theorem Database.Within.of_same {w w' : World V} (hw : w.database.Within ingredients)
    (h : w.Same w') : w'.database.Within ingredients :=
  hw.step (fun q => .inl (congrFun (h.inputs 0) q)) (fun q => .inl (h.cell 0 q))
    fun kind => .inl (congrFun h.interned kind)

/-- **A step of a task** keeps the database on its own. -/
theorem Own.taskStep (hlist : S.ListedBy ingredients) (h : Own S ingredients c) {t : TaskId}
    (hs : TaskStep S c t c') : Own S ingredients c' := by
  obtain ⟨hpend, hview, -⟩ := hs.same_access
  have h0 := h.views t hpend
  have hviews : ∀ t', c'.Pending t' → (c'.tasks t').view = 0 := by
    intro t' ht'
    rcases eq_or_ne t' t with rfl | hne
    · exact hview.trans h0
    · rw [hs.tasks_ne hne]
      exact h.views t' ((hs.pending_ne hne).mp ht')
  have hkeys : (∀ a ∈ (c'.tasks t).stack, S.sectionType a.key.kind = .derived) →
      ∀ t', ∀ a ∈ (c'.tasks t').stack, S.sectionType a.key.kind = .derived := by
    intro hown t'
    rcases eq_or_ne t' t with rfl | hne
    · exact hown
    · rw [hs.tasks_ne hne]
      exact h.keys t'
  have hstack := h.keys t
  cases hs with
  | goto hst ha =>
    rw [hst] at hstack
    obtain ⟨hkey, hbelow⟩ := List.forall_mem_cons.mp hstack
    rw [h0] at ha
    refine ⟨ha.lone h.lone, ha.within hlist hkey h.within, hviews, hkeys ?_⟩
    simp only [setTask, Function.update_self]
    exact List.forall_mem_cons.mpr ⟨ha.key ▸ hkey, hbelow⟩
  | call hst ha =>
    rw [hst] at hstack
    obtain ⟨hkey, hbelow⟩ := List.forall_mem_cons.mp hstack
    rw [h0] at ha
    refine ⟨ha.lone h.lone, ha.within hlist hkey h.within, hviews, hkeys ?_⟩
    simp only [setTask, Function.update_self]
    refine List.forall_mem_cons.mpr ⟨ha.call_key.2, List.forall_mem_cons.mpr ⟨?_, hbelow⟩⟩
    exact ha.call_key.1 ▸ hkey
  | ret hst ha =>
    rw [hst] at hstack
    rw [h0] at ha
    refine ⟨ha.lone h.lone, ha.within hlist (List.forall_mem_cons.mp hstack).1 h.within, hviews,
      hkeys ?_⟩
    simp only [setTask, Function.update_self]
    exact fun a ha => absurd ha List.not_mem_nil
  | resume hst ha hp =>
    rw [hst] at hstack
    obtain ⟨hkey, hbelow⟩ := List.forall_mem_cons.mp hstack
    obtain ⟨hpkey, hrest⟩ := List.forall_mem_cons.mp hbelow
    rw [h0] at ha hp
    refine ⟨hp.lone (ha.lone h.lone), (ha.within hlist hkey h.within).of_same hp.same, hviews,
      hkeys ?_⟩
    simp only [setTask, Function.update_self]
    exact List.forall_mem_cons.mpr ⟨hp.key ▸ hpkey, hrest⟩

theorem own_step (hlist : S.ListedBy ingredients) (h : Own S ingredients c) {l : Label V}
    (hs : step S c l = some c') (hl : SequentialIn (Label.Lone ingredients) c l c') :
    Own S ingredients c' := by
  rcases hl with ⟨t, rfl⟩ | ⟨-, hop, hlone⟩
  · exact h.taskStep hlist (taskStep_of_step hs)
  · cases l with
    | spawn view key want =>
      obtain rfl : view = 0 := hlone
      simp only [step] at hs
      split at hs
      · next hv =>
        cases hs
        refine ⟨h.lone, h.within, fun t ht => ?_, fun t a ha => ?_⟩
        · unfold Pending at ht
          rcases eq_or_ne t c.taskCount with rfl | hne
          · simp
          · simp only [Function.update_of_ne hne] at ht ⊢
            exact h.views t ht
        · rcases eq_or_ne t c.taskCount with rfl | hne
          · simp only [Function.update_self] at ha
            rw [List.mem_singleton.mp ha]
            exact hv.2
          · simp only [Function.update_of_ne hne] at ha
            exact h.keys t a ha
      · cases hs
    | mutate view key value =>
      obtain rfl : view = 0 := hlone
      simp only [step] at hs
      split at hs
      · next hv =>
        cases hs
        have hdb := c.world.database_mutateWorld key value
        refine ⟨h.lone.mutate key value, h.within.step (fun q => ?_) (fun q => .inl (hdb q).2.1)
          (fun kind => .inl (congrFun (hdb key).2.2 kind)), h.views, h.keys⟩
        rcases (hdb q).1 with hsame | rfl
        · exact .inl hsame
        · exact .inr (hlist.inputs _ hv.2)
      · cases hs
    | intern kind value =>
      cases hs
      refine ⟨h.lone.of_eq rfl rfl rfl, h.within.step (fun q => .inl rfl) (fun q => .inl rfl)
        fun kind' => ?_, h.views, h.keys⟩
      rcases eq_or_ne kind' kind with rfl | hne
      · exact .inr hlone
      · exact .inl (Function.update_of_ne hne ..)
    | bump view =>
      obtain rfl : view = 0 := hlone
      simp only [step] at hs
      split at hs <;> cases hs
      exact ⟨h.lone.modifyRuntime rfl, h.within.step (fun q => .inl rfl) (fun q => .inl rfl)
        fun kind => .inl rfl, h.views, h.keys⟩
    | snapshot => exact hlone.elim
    | step t | drop t | «begin» view key value | advance n => cases hop

/-- **An operation leaves the database on its own.** -/
theorem Quiet.runOp (hlist : S.ListedBy ingredients) (h : Quiet S ingredients c)
    (hrun : runOp S fuel c op = some c') (hop : op.Lone ingredients) : Quiet S ingredients c' := by
  obtain ⟨ls, hls, hidle⟩ := runOp_steps (P := Label.Lone ingredients) hrun h.idle hop
  have hown := hls.invariant (I := Own S ingredients) h.own fun m l m' hm hl hok =>
    own_step hlist hm hl hok
  have hcalm := hls.invariant (I := Calm) (.of_idle h.idle h.mutators) fun m l m' hm hl hok =>
    hm.step hl hok.sequential
  exact ⟨hidle, hcalm.mutators, led_run h.led hls, hown⟩

end quiet

/-! ## 2. Databases that were used -/

/-- A new database, in a process that has made `n` lookups in the shared cache so far. -/
def Config.start (n : Nat) : Config V :=
  { (init : Config V) with world := { World.init with lookups := n } }

/-- Another database takes the place of the database. -/
def Config.reload (c : Config V) (db : Database V) : Config V :=
  { c with world := c.world.reload db }

section sessions

variable [DecidableEq V] (S : Schema V) (C : Codec V) (ingredients : List PersistableIngredient)

/-- A database that was used in any way: operations one after another, and loads of any file with
any outcome. -/
inductive Used : Config V → Prop
  | new (n : Nat) : Used (start n)
  | op {c c' : Config V} {fuel : Nat} {op : Op V} (h : Used c) (hop : Op.Lone ingredients op)
      (hrun : runOp S fuel c op = some c') : Used c'
  | load {c : Config V} (h : Used c) (o : Order) (options : CacheLoadOptions) (file : FileRead) :
      Used (c.reload (c.world.database.loadCacheWithOptions C o ingredients options file).database)

/-- The file that `saved` has saved is loaded into `c`, which becomes `c'`. -/
def Loads (saved c c' : Config V) : Prop :=
  ∃ o o' bytes db, o.Lists saved.world.database ∧ o'.Lists saved.world.database ∧
    saved.world.database.saveCache o C ingredients = .ok bytes ∧
      c.world.database.loadCache C o' ingredients (.read bytes) = (.ok true, db) ∧
        c' = c.reload db

/-- A database that has run operations and loaded files which such databases saved, into a
database that was used in any way before.  `P` is what is asked of the world a file is loaded
into.  No interned id is read that is not there. -/
inductive Session (P : World V → Prop) : Config V → Prop
  | new (n : Nat) : Session P (start n)
  | op {c c' : Config V} {fuel : Nat} {op : Op V} (h : Session P c)
      (hop : Op.Lone ingredients op) (hrun : runOp S fuel c op = some c')
      (hlog : ∀ e ∈ c'.world.log, e.isMissing = false) : Session P c'
  | load {c c' saved : Config V} (h : Used S C ingredients c) (hP : P c.world)
      (hsaved : Session P saved) (hload : Loads C ingredients saved c c') : Session P c'

end sessions

/-- The shared cache has no record that is filed under the database. -/
def World.Unshared (w : World V) : Prop := ∀ q, w.shared (w.scope 0) q = none

section start

variable {S : Schema V} {ingredients : List PersistableIngredient} {n : Nat}

theorem quiet_start : Quiet S ingredients (start n : Config V) where
  idle := idle_init
  mutators := rfl
  led := { led_init with }
  own :=
    { lone := ⟨rfl, fun _ _ => rfl, rfl, fun _ _ _ => rfl⟩
      within := ⟨fun _ h => absurd rfl h, fun _ h => absurd rfl h, fun _ h => absurd rfl h⟩
      views := fun t ht => absurd ht (idle_init t)
      keys := fun _ _ ha => absurd ha List.not_mem_nil }

theorem rested_start (T : Spec V) : T.Rested .init (start n) where
  consistent :=
    { world :=
        { Spec.coherent_init T with
          ready := fun _ _ _ => nofun
          poisoned := fun _ _ _ _ => nofun
          shared := fun _ _ => nofun
          entries := fun _ => trivial
          answered := fun _ _ _ => nofun
          current := fun _ _ => nofun }
      views := (Spec.consistent_init T).views
      stacked := fun _ => trivial
      mutators := (Spec.consistent_init T).mutators }
  upToDate := Spec.upToDate_init
  calm := { calm_init with }
  native := { native_init with world := { (native_init : Native (init : Config V)).world with } }
  idle := idle_init

end start

section consistent

variable [DecidableEq V] {S : Schema V} {C : Codec V} {ingredients : List PersistableIngredient}
  {P : World V → Prop} {c c' saved : Config V} {T : Spec V}

omit [DecidableEq V] in
/-- Another database that has nothing but the ingredients, under the same identity. -/
theorem Quiet.reload (h : Quiet S ingredients c) {db : Database V}
    (hspares : Database.Spares ingredients c.world.database db) :
    Quiet S ingredients (c.reload db) where
  idle := h.idle
  mutators := h.mutators
  led := h.led.framed _ _ rfl
  own :=
    { lone := h.own.lone.reload hspares.identity
      within := by
        show (c.world.reload db).database.Within ingredients
        rw [c.world.database_reload]
        exact h.own.within.spared hspares
      views := h.own.views
      keys := h.own.keys }

/-- A used database is on its own. -/
theorem Used.quiet (hlist : S.ListedBy ingredients) (h : Used S C ingredients c) :
    Quiet S ingredients c := by
  induction h with
  | new n => exact quiet_start
  | op _ hop hrun ih => exact ih.runOp hlist hrun hop
  | @load c _ o options file ih =>
    exact ih.reload (Database.spares_loadCacheWithOptions options file c.world.database)

/-- A list of operations is a use. -/
theorem Used.ops {fuel : Nat} {ops : List (Op V)} (h : Used S C ingredients c)
    (hops : ∀ op ∈ ops, Op.Lone ingredients op) (hrun : runOps S fuel c ops = some c') :
    Used S C ingredients c' := by
  induction ops generalizing c with
  | nil =>
    cases hrun
    exact h
  | cons op ops ih =>
    obtain ⟨hop, hops⟩ := List.forall_mem_cons.mp hops
    simp only [runOps] at hrun
    split at hrun
    · cases hrun
    · next hfirst => exact ih (h.op hop hfirst) hops hrun

/-- **What is known between the operations of a session**: once the entries nobody holds are
forgotten, everything is in order. -/
structure Settled (T : Spec V) (ingredients : List PersistableIngredient) (c : Config V) :
    Prop where
  quiet : Quiet T.schema ingredients c
  inverse : ∀ kind, (c.world.interned kind).Inverse
  rested : ∃ n p, c.Holds n ∧ T.Rested p (c.forget n)

omit [DecidableEq V] in
theorem settled_start (n : Nat) : Settled T ingredients (start n) where
  quiet := quiet_start
  inverse _ _ _ := ⟨nofun, nofun⟩
  rested := ⟨0, .init, ⟨Nat.le_refl 0, nofun, fun _ _ ha => absurd ha List.not_mem_nil⟩,
    rested_start T⟩

/-- **An operation** of a session keeps everything in order. -/
theorem Settled.op (hT : T.Fits) (hacc : T.account = .failures)
    (hlist : T.schema.ListedBy ingredients) (h : Settled T ingredients c) {fuel : Nat} {op : Op V}
    (hop : Op.Lone ingredients op) (hrun : runOp T.schema fuel c op = some c')
    (hlog : ∀ e ∈ c'.world.log, e.isMissing = false) : Settled T ingredients c' := by
  obtain ⟨n, p, hholds, hrested⟩ := h.rested
  obtain ⟨hforget, hholds'⟩ := hholds.runOp hrun
  obtain ⟨p', -, hrested'⟩ := hrested.runOp hT hforget (Label.Lone.onDatabase hop) fun e he hf =>
    hacc ▸ allows_native hf (hlog e he)
  obtain ⟨ls, hls, -⟩ := runOp_steps (P := fun _ => True) hrun h.quiet.idle trivial
  refine ⟨h.quiet.runOp hlist hrun hop, fun kind => ?_, n, p', hholds', hrested'⟩
  exact (inverse_steps hls (fun kind => ⟨h.inverse kind,
    hrested.consistent.world.interned kind⟩) kind).1

/-- **A load** puts the saved database, and its past, in the place of the one that was used. -/
theorem Settled.load (hC : C.RoundTrip) (h : Quiet T.schema ingredients c)
    (hshared : c.world.Unshared) (hsaved : Settled T ingredients saved)
    (hload : Loads C ingredients saved c c') : Settled T ingredients c' := by
  obtain ⟨o, o', bytes, db, ho, ho', hsave, hdb, rfl⟩ := hload
  obtain ⟨n, p, hholds, hrested⟩ := hsaved.rested
  have hr := restored_loadCache hC ho ho' hsaved.inverse hsaved.quiet.own.within h.own.within
    hsave hdb
  have hquiet : Quiet T.schema ingredients (c.reload db) := h.reload (Database.spares_loadCache hdb)
  have hfiled := h.led.unfiled h.idle
  have hw : (saved.world.forget n).Lone := hsaved.quiet.own.lone.of_eq rfl rfl rfl
  have hre := reloaded_of_restored hrested.native.world hw h.own.lone hr hshared h.led.unmade
    hfiled
  refine ⟨hquiet, fun kind id v => ?_, c.world.registry.nextEntry, p, hquiet.idle.holds hfiled, ?_⟩
  · have hid : (db.interned kind).byId = (saved.world.interned kind).byId := hr.byId kind
    have hval : (db.interned kind).byValue = (saved.world.interned kind).byValue := hr.byValue kind
    show (db.interned kind).byId id = some v ↔ (db.interned kind).byValue v = some id
    rw [hid, hval]
    exact hsaved.inverse kind id v
  · have hidle : ((c.reload db).forget c.world.registry.nextEntry).Idle := h.idle
    have hnone : ∀ {m : Mutator V}, m ∉ c.mutators := by
      intro m hm
      rw [h.mutators] at hm
      cases hm
    have hstack : ∀ t, (((c.reload db).forget c.world.registry.nextEntry).tasks t).stack = [] :=
      fun t => not_not.mp (hidle t)
    constructor
    · constructor
      · exact coherent_of_reloaded hrested.consistent.world hre
      · exact fun t ht => absurd ht (hidle t)
      · intro t
        rw [hstack t]
        trivial
      · exact fun m hm => absurd hm hnone
    · intro _
      refine (hrested.upToDate fun m hm => ?_).trans (hre.rev 0).symm
      have hnil : m ∈ saved.mutators := hm
      rw [hsaved.quiet.mutators] at hnil
      cases hnil
    · exact .of_idle hidle h.mutators
    · refine ⟨hre.native hrested.native.world, fun t ht => absurd ht (hidle t), fun t b hb => ?_⟩
      rw [hstack t] at hb
      cases hb
    · exact hidle

/-- **Between the operations of a session everything is in order.** -/
theorem Session.settled (hT : T.Fits) (hacc : T.account = .failures) (hC : C.RoundTrip)
    (hlist : T.schema.ListedBy ingredients)
    (h : Session T.schema C ingredients World.Unshared c) : Settled T ingredients c := by
  induction h with
  | new n => exact settled_start n
  | op _ hop hrun hlog ih => exact ih.op hT hacc hlist hop hrun hlog
  | load hused hP _ hload ih => exact .load hC (hused.quiet hlist) hP ih hload

/-- **A load may come at any time**, as long as no record is filed under the database in the
shared cache: what an access returns after it, and after any further operations, is what the
evaluation without a cache returns. -/
theorem loaded_database_is_consistent {body : DynKey → Query V} {fuel : Nat} {q : DynKey}
    {want : Bool} (hdet : ∀ n q, S.compute n q = body q) (hprop : ∀ q, (body q).Propagates)
    (hC : C.RoundTrip) (hlist : S.ListedBy ingredients)
    (h : Session S C ingredients World.Unshared c)
    (hrun : runOp S fuel c (.access 0 q want) = some c')
    (hlog : ∀ e ∈ c'.world.log, e.isMissing = false) :
    ∃ r, c'.lastResult = some r ∧ Agrees S body c'.world ((c'.world.inputs 0).get) q r := by
  have hT : Spec.Fits ⟨S, body, .failures⟩ := ⟨hdet, fun _ => hprop⟩
  obtain ⟨-, -, n, p, hholds, hrested⟩ : Settled ⟨S, body, .failures⟩ ingredients c :=
    h.settled hT rfl hC hlist
  obtain ⟨hforget, -⟩ := hholds.runOp hrun
  have hlast : runOps S fuel (c.forget n) ([] ++ [.access 0 q want]) = some (c'.forget n) := by
    simp only [List.nil_append, runOps, hforget]
  obtain ⟨r, hr, hret⟩ := returned_on_database (T := ⟨S, body, .failures⟩) hT hrested hlast
    (fun op hop => absurd hop List.not_mem_nil) fun e he hf => allows_native hf (hlog e he)
  exact ⟨r, hr, hret.agrees hprop (derived_of_access hlast)⟩

end consistent

namespace Reused

open RoundTrip (item)
open Computed (body total)

/-- Before the third lookup, the shared cache has evicted what is looked up. -/
def schema : Schema Nat :=
  { RoundTrip.schema with compute := fun _ => body, evicted := fun n => n == 2 }

def file : CacheFile :=
  ⟨formatVersion, 1, [⟨0, "items", .input, [[]]⟩, ⟨1, "totals", .derived, []⟩,
    ⟨2, "names", .interned, []⟩]⟩

def codec : Codec Nat := .ofTable ⟨[file], [([], ⟨some 2, 1⟩)], [], []⟩

def order : Order := ⟨fun _ => [[]], fun _ => [], fun _ => []⟩

theorem propagates (q : DynKey) : (body q).Propagates := by
  refine ⟨fun e => ⟨e, rfl⟩, fun a => ?_⟩
  cases a <;> trivial

theorem listedBy : schema.ListedBy RoundTrip.ingredients where
  inputs kind h := by
    refine ⟨⟨0, "items", .input⟩, List.mem_cons_self .., rfl, ?_⟩
    by_contra hne
    simp only [schema, RoundTrip.schema, if_neg (Ne.symm hne)] at h
    split at h <;> cases h
  derived kind h := by
    refine ⟨⟨1, "totals", .derived⟩, .tail _ (.head _), rfl, ?_⟩
    by_contra hne
    simp only [schema, RoundTrip.schema, if_neg (Ne.symm hne)] at h
    split at h <;> cases h

/-- The database that saves the file: the item is 2. -/
theorem saved (P : World Nat → Prop) :
    ∃ c, Session schema codec RoundTrip.ingredients P c ∧ order.Lists c.world.database ∧
      c.world.database.saveCache order codec RoundTrip.ingredients = .ok [] := by
  obtain ⟨c, hc⟩ : ∃ c, runOp schema 0 (start 0) (.mutate 0 item (some 2)) = some c := ⟨_, rfl⟩
  have hlog : c.world.log = [] := by
    cases hc
    rfl
  refine ⟨c, .op (.new 0) (show Op.Lone _ (.mutate 0 item (some 2)) from rfl) hc (by simp [hlog]),
    ?_, ?_⟩
  · cases hc
    refine ⟨fun _ => List.nodup_singleton _, fun k e he => ?_, fun _ => .nil, nofun,
      fun _ => .nil, nofun⟩
    by_cases hk : k = item
    · rw [hk]
      exact List.mem_singleton.mpr rfl
    · have hnone : (none : Option (InputEntry Nat)) = some e :=
        (Function.update_of_ne hk ..).symm.trans he
      cases hnone
  · cases hc
    rfl

/-- The database that is loaded into: the item is 1, and the total of it is filed under it. -/
def before : List (Op Nat) := [.mutate 0 item (some 1), .access 0 total true]

theorem lone_before : ∀ op ∈ before, Op.Lone RoundTrip.ingredients op := by
  intro op hop
  simp only [before, List.mem_cons, List.not_mem_nil, or_false] at hop
  rcases hop with rfl | rfl <;> rfl

def load (c : Config Nat) : PicanteResult Bool × Database Nat :=
  c.world.database.loadCache codec order RoundTrip.ingredients (.read [])

end Reused

open Reused in
open RoundTrip (item ingredients) in
open Computed (body total) in
/-- **A record of another past is taken.**  The total of the item, 1, is filed under the database at
revision 1.  The file has the item 2, set at revision 1.  After the load the revision is 1, the
shared record counts as verified there, and the total is still 1. -/
theorem record_of_another_past :
    ¬ ∀ (c c' : Config Nat) (fuel : Nat) (q : DynKey) (want : Bool),
      Session schema codec ingredients (fun _ => True) c →
        runOp schema fuel c (.access 0 q want) = some c' →
          (∀ e ∈ c'.world.log, e.isMissing = false) →
            ∃ r, c'.lastResult = some r ∧
              Agrees schema body c'.world ((c'.world.inputs 0).get) q r := by
  intro h
  have hrun : (runOps schema 60 (start 0) before).any (fun c => (load c).1 = .ok true ∧
      (runOp schema 60 (c.reload (load c).2) (.access 0 total true)).any (fun c' =>
        (∀ e ∈ c'.world.log, e.isMissing = false) ∧ c'.lastResult = some (.ok (1, 1)) ∧
          ReadProg.evaluate (slotsEnv schema body c'.world ((c'.world.inputs 0).get))
            (faults schema) 3 []
            total = some (.ok 2))) := by decide +kernel
  obtain ⟨c, hc, hfirst⟩ := (Option.any_eq_true ..).mp hrun
  obtain ⟨hload, hsecond⟩ := of_decide_eq_true hfirst
  obtain ⟨c', hc', hlast⟩ := (Option.any_eq_true ..).mp hsecond
  obtain ⟨hlog, hresult, heval⟩ := of_decide_eq_true hlast
  obtain ⟨s, hs, ho, hsave⟩ := saved fun _ => True
  have hused : Used schema codec ingredients c := (Used.new 0).ops lone_before hc
  have hsession : Session schema codec ingredients (fun _ => True) (c.reload (load c).2) :=
    .load hused trivial hs ⟨order, order, [], _, ho, ho, hsave, Prod.ext hload rfl, rfl⟩
  obtain ⟨r, hr, hagrees⟩ := h _ c' 60 total true hsession hc' hlog
  rw [hresult] at hr
  cases hr
  have hold := (hagrees.ok 1).mp ⟨1, rfl⟩
  cases hold.functional ⟨3, heval⟩

open Reused in
open RoundTrip (item ingredients) in
open Computed (body total) in
/-- The total was computed, and evicted from the shared cache when the item was gone: after the load
it is that of the file. -/
theorem loaded_into_unshared :
    ∃ m c c' r, (m.tasks 0).result = some (.ok (1, 1)) ∧ Used schema codec ingredients m ∧
      m.world.Unshared ∧ c = m.reload (load m).2 ∧
        Session schema codec ingredients World.Unshared c ∧
          runOp schema 60 c (.access 0 total true) = some c' ∧ c'.lastResult = some r ∧
            r.map Prod.fst = .ok 2 ∧
              Agrees schema body c'.world ((c'.world.inputs 0).get) total r := by
  have hrun : (step schema (start 1) (.mutate 0 item (some 1))).any fun m₁ =>
      (accessOn schema total 16 m₁).any fun m₂ =>
        (step schema m₂ (.mutate 0 item none)).any fun m₃ =>
          (accessOn schema total 15 m₃).any fun m => (m.tasks 0).result = some (.ok (1, 1)) ∧
            (m.world.shared (m.world.scope 0) total).isNone ∧ (load m).1 = .ok true ∧
              (runOp schema 60 (m.reload (load m).2) (.access 0 total true)).any fun c' =>
                (∀ e ∈ c'.world.log, e.isMissing = false) ∧
                  c'.lastResult.any fun r => r.map Prod.fst = .ok 2 := by decide +kernel
  obtain ⟨m₁, hm₁, hrun⟩ := (Option.any_eq_true ..).mp hrun
  obtain ⟨m₂, hm₂, hrun⟩ := (Option.any_eq_true ..).mp hrun
  obtain ⟨m₃, hm₃, hrun⟩ := (Option.any_eq_true ..).mp hrun
  obtain ⟨m, hm, hrun⟩ := (Option.any_eq_true ..).mp hrun
  obtain ⟨hcomputed, hevicted, hload, hrun⟩ := of_decide_eq_true hrun
  obtain ⟨c', hc', hlast⟩ := (Option.any_eq_true ..).mp hrun
  obtain ⟨hlog, hlast⟩ := of_decide_eq_true hlast
  obtain ⟨r, hr, hvalue⟩ := (Option.any_eq_true ..).mp hlast
  obtain ⟨hrun₂, hframe₂⟩ := runOp_of_accessOn hm₂
  obtain ⟨hrun₄, hframe₄⟩ := runOp_of_accessOn hm
  have hmutate : ∀ {m m' : Config Nat} {v : Option Nat},
      step schema m (.mutate 0 item v) = some m' → m'.world.shared = m.world.shared := by
    intro m m' v h
    simp only [step] at h
    split at h <;> cases h
    exact World.shared_mutateWorld ..
  have hunshared : m.world.Unshared := by
    intro q
    by_cases hq : q = total
    · exact hq ▸ Option.isNone_iff_eq_none.mp hevicted
    · refine hframe₄.unshared _ q hq ?_
      rw [hmutate hm₃]
      refine hframe₂.unshared _ q hq ?_
      rw [hmutate hm₁]
      rfl
  have hrun₁ : runOp schema 0 (start 1) (.mutate 0 item (some 1)) = some m₁ := hm₁
  have hrun₃ : runOp schema 0 m₂ (.mutate 0 item none) = some m₃ := hm₃
  have hlone : ∀ v, Op.Lone ingredients (.mutate 0 item v : Op Nat) := fun v => rfl
  have haccess : Op.Lone ingredients (.access 0 total true : Op Nat) := rfl
  have hused : Used schema codec ingredients m :=
    .op (.op (.op (.op (.new 1) (hlone _) hrun₁) haccess hrun₂) (hlone _) hrun₃) haccess hrun₄
  obtain ⟨s, hs, ho, hsave⟩ := saved World.Unshared
  have hsession : Session schema codec ingredients World.Unshared (m.reload (load m).2) :=
    .load hused hunshared hs ⟨order, order, [], _, ho, ho, hsave, Prod.ext hload rfl, rfl⟩
  obtain ⟨r', hr', hagrees⟩ := loaded_database_is_consistent (fun _ _ => rfl) propagates
    (Codec.roundTrip_ofTable _) listedBy hsession hc' hlog
  obtain rfl := Option.some.inj (hr.symm.trans hr')
  exact ⟨m, _, c', r, hcomputed, hused, hunshared, rfl, hsession, hc', hr,
    of_decide_eq_true hvalue, hagrees⟩

end Picante

/-
# Registering dependencies

The reverse graph of a view's runtime is what invalidation events are sent by, and it has its own
books: a cell is not found there unless somebody has registered its recorded list.  A computation
and an adoption do so before they store the cell, and a load or a replay once all cells are there.
A snapshot is given copies of cells but a new runtime, and `insert_ready_record` stores a cell and
nothing else: neither registers anything.

* `Usage` -- what happens to the views of a family one after another, promotion and persistence
  included.
* `Usage.Registers` -- it brings no cell into a view whose list is not on file there.
* `registered_run` -- then every ready cell has its list on file, so that every `set` and `remove`
  tells of it.
-/
import Picante.Runtime.Invalidation
import Picante.Cutoff.Law
import Picante.Cutoff.Workers
import Picante.Persist.Loaded
import Picante.Persist.Rejected
import Picante.Persist.Wal

namespace Picante

open Config

variable {V : Type}

/-! ## 1. What happens to a view -/

/-- A view as persistence sees it, with the interning tables it shares. -/
def World.viewDatabase (w : World V) (i : ViewId) : Database V :=
  { w.views i with interned := w.interned }

/-- Puts another database in the place of a view. -/
def World.replaceView (w : World V) (i : ViewId) (db : Database V) : World V :=
  { w with
    views := Function.update w.views i db.toView
    interned := db.interned }

/-- `insert_ready_record`: a new cell in place of the one that is there. -/
def World.insertReadyRecord (w : World V) (i : ViewId) (k : DynKey) (r : DerivedRecord V) :
    World V :=
  w.modifyView i fun v => { v with cells := Function.update v.cells k (.newReady r) }

/-- What can happen next: a step of the system, the promotion of a record into a view, a load
into a view, or a replay on it. -/
inductive Usage (V : Type) where
  | label (l : Label V)
  | promote (view : ViewId) (key : DynKey) (record : DerivedRecord V)
  | load (view : ViewId) (o : Order) (options : CacheLoadOptions) (file : FileRead)
  | replay (view : ViewId) (o : Order) (file : FileRead)

section usage

variable [DecidableEq V] (S : Schema V) (C : WalCodec V) (ingredients : List PersistableIngredient)

/-- The transition function. -/
def Config.use (c : Config V) : Usage V → Option (Config V)
  | .label l => Config.step S c l
  | .promote view key record =>
    if view < c.world.viewCount ∧ S.sectionType key.kind = .derived then
      some { c with world := c.world.insertReadyRecord view key record }
    else none
  | .load view o options file =>
    if view < c.world.viewCount then
      some { c with world := c.world.replaceView view ((c.world.viewDatabase view
        ).loadCacheWithOptions C.toCodec o ingredients options file).database }
    else none
  | .replay view o file =>
    if view < c.world.viewCount then
      some { c with world := c.world.replaceView view ((c.world.viewDatabase view
        ).replayWal C o ingredients file).2 }
    else none

/-- Iterating over the cells of the view yields the ready ones. -/
def Order.Covers (o : Order) (v : View V) : Prop :=
  ∀ q r, (v.cells q).state = .ready r → q.key ∈ o.cells q.kind

/-- One thing after another: a task takes a step, or no task is running; and iterating over cells
leaves none out. -/
def Usage.Sequential (c : Config V) : Usage V → Config V → Prop
  | .label l, c' => Picante.Sequential c l c'
  | .promote .., _ => c.Idle
  | .load view o .., c' | .replay view o _, c' => c.Idle ∧ o.Covers (c'.world.views view)

end usage

/-! ## 2. What brings a cell that is not on file -/

section registers

variable [DecidableEq V] (C : WalCodec V) (ingredients : List PersistableIngredient)

/-- **Nothing brings a ready cell into view `i` whose dependencies are not on file there**: the
view is no snapshot of a database whose ready cells have dependencies, a record is promoted only
where the view has its dependencies on file, and a file is applied as a whole; loading one, no
ready cell of the view has dependencies but those of the ingredients that are loaded. -/
def Usage.Registers (i : ViewId) (c : Config V) : Usage V → Prop
  | .label .snapshot => c.world.viewCount = i → ∀ q d, ¬ (c.world.views 0).Depends q d
  | .label _ => True
  | .promote view key record =>
    view = i → ∀ d ∈ record.deps, (c.world.views i).runtime.reverseDeps d key = true
  | .load view o options file => view = i →
    let db := c.world.viewDatabase i
    let outcome := db.loadCacheInner C.toCodec o ingredients options.maxBytes file
    outcome.2 = db ∨ (∃ b, outcome.1 = .ok b) ∧ ∀ q d, db.Depends q d →
      ∃ p ∈ ingredients, p.sectionType = .derived ∧ p.kind = q.kind
  | .replay view o file => view = i →
    let db := c.world.viewDatabase i
    let outcome := db.replayWal C o ingredients file
    outcome.2 = db ∨ ∃ n, outcome.1 = .ok n

end registers

/-! ## 3. An access -/

/-- A straight-line part registers a list before it stores a cell with it; `filed` are the
dependencies on file. -/
def FilesOps : (Dep → Prop) → List (MicroOp V) → Prop
  | _, .updateDeps deps :: ops => ops.any (·.setsCell) ∧ FilesOps (· ∈ deps) ops
  | filed, .setCell (.ready r) :: ops => (∀ d ∈ r.deps, filed d) ∧ FilesOps filed ops
  | filed, _ :: ops => FilesOps filed ops
  | _, [] => True

theorem FilesOps.mono {P Q : Dep → Prop} (hPQ : ∀ d, P d → Q d) {ops : List (MicroOp V)}
    (h : FilesOps P ops) : FilesOps Q ops := by
  induction ops with
  | nil => trivial
  | cons op ops ih =>
    cases op with
    | updateDeps deps => exact h
    | setCell st =>
      cases st with
      | ready r => exact ⟨fun d hd => hPQ d (h.1 d hd), ih h.2⟩
      | _ => exact ih h
    | _ => exact ih h

/-- An access that does not follow, and registers what it stores. -/
def Pc.Files (filed : Dep → Prop) : Pc V → Prop
  | .followReset _ | .followListen _ | .followRead .. | .followParked .. => False
  | .finishing ops => FilesOps filed ops
  | _ => True

theorem files_afterRevalidation {filed : Dep → Prop} (view : ViewId) (rev : Revision)
    (src : Source V) (b : Bool) : (afterRevalidation view rev src b).Files filed := by
  cases src with
  | cell deps ch f => cases b <;> trivial
  | shared F prev =>
    cases b <;> simp [afterRevalidation, Pc.Files, adoptOps, FilesOps, MicroOp.setsCell]

theorem Touched.files {w w' : World V} {view : ViewId} {a a' : Activation V} {src : Source V}
    {rest : List Dep} {r : PicanteResult Revision} (h : Touched w view a src rest r w' a')
    (filed : Dep → Prop) : a'.pc.Files filed := by
  cases h with
  | unchanged _ => trivial
  | changed _ => exact files_afterRevalidation ..
  | failed => trivial

theorem Resumed.files {w w' : World V} {view : ViewId} {p p' : Activation V} {r : AccessResult V}
    (h : Resumed w view p r w' p') (hwait : ∃ k, p.pc.waitsFor k) (filed : Dep → Prop) :
    p'.pc.Files filed := by
  cases h with
  | touched _ ht => exact ht.files filed
  | answered _ => trivial
  | idle hpc =>
    obtain ⟨k, hk⟩ := hwait
    cases hpc' : p.pc with
    | touching src dep rest => exact absurd hpc' (hpc.1 src dep rest)
    | reading prev d k deps => exact absurd hpc' (hpc.2 prev d k deps)
    | _ =>
      rw [hpc'] at hk
      exact hk.elim

section step

variable [DecidableEq V] {S : Schema V} {w w' : World V} {view : ViewId} {task : TaskId}
  {below : List (Activation V)} {a a' : Activation V}

/-- What a step does to the graph of its view. -/
theorem ActStep.graph (h : ActStep S w view task below a w' (.goto a')) :
    (w'.views view).runtime = (w.views view).runtime ∨
      ∃ deps ops, a.pc = .finishing (.updateDeps deps :: ops) ∧
        (w'.views view).runtime = (w.views view).runtime.updateQueryDeps a.key deps := by
  cases h with
  | touchInput _ _ ht | touchInterned _ _ _ ht => exact .inl (by rw [ht.views])
  | sharedMiss _ hlook _ => rcases hlook with rfl | rfl <;> exact .inl rfl
  | reverify _ _ | start _ _ | followReset _ | setCell _ | notifyCell _ =>
    exact .inl (by simp [World.setCell, World.notifyCell, World.modifyView])
  | updateDeps hpc =>
    exact .inr ⟨_, _, hpc, by simp [World.modifyRuntime, World.modifyView]⟩
  | _ => exact .inl rfl

/-- A step of a task leaves the graph of a view as it is, or registers a list for its top access. -/
theorem Config.TaskStep.graph {c c' : Config V} {t : TaskId} (h : TaskStep S c t c') (i : ViewId) :
    (c'.world.views i).runtime = (c.world.views i).runtime ∨
      ∃ a below deps, (c.tasks t).stack = a :: below ∧ i = (c.tasks t).view ∧
        (c'.world.views i).runtime = (c.world.views i).runtime.updateQueryDeps a.key deps := by
  cases h with
  | @goto a a' below w hst ha =>
    by_cases hi : i = (c.tasks t).view
    · subst hi
      rcases ha.graph with heq | ⟨deps, ops, -, heq⟩
      · exact .inl heq
      · exact .inr ⟨a, below, deps, hst, rfl, heq⟩
    · exact .inl (congrArg View.runtime (ha.views_other hi))
  | call hst ha =>
    obtain ⟨rfl, -⟩ := ha.call_pcOk .vacant
    exact .inl rfl
  | ret hst ha =>
    obtain rfl := ha.ret_world
    exact .inl rfl
  | resume hst ha hp =>
    obtain rfl := ha.ret_world
    exact .inl (congrArg View.runtime (congrFun hp.views i))

theorem ActStep.files (h : ActStep S w view task below a w' (.goto a')) {filed : Dep → Prop}
    (hfiled : ∀ d, (w'.views view).runtime.reverseDeps d a.key = true → filed d)
    (ha : a.pc.Files fun d => (w.views view).runtime.reverseDeps d a.key = true)
    (hlead : ∀ prev, a.pc = .lead prev →
      w.registry.filed ⟨w.scope view, a.rev, a.key⟩ = none) : a'.pc.Files filed := by
  -- only a step that registers a list changes what is on file
  have hsame : (∀ deps ops, a.pc ≠ .finishing (.updateDeps deps :: ops)) →
      ∀ d, (w.views view).runtime.reverseDeps d a.key = true → filed d := by
    intro hpc d hd
    rcases h.graph with heq | ⟨deps, ops, hpc', -⟩
    · exact hfiled d (heq ▸ hd)
    · exact absurd hpc' (hpc deps ops)
  cases h with
  | accept _ | unregistered _ _ => exact files_afterRevalidation ..
  | touchInput _ _ ht | touchInterned _ _ _ ht => exact ht.files filed
  | sharedHit _ _ _ => simp [Activation.moveTo, Pc.Files, adoptOps, FilesOps, MicroOp.setsCell]
  | follow hpc hf =>
    rw [hlead _ hpc] at hf
    cases hf
  | followReset hpc | followListen hpc | followPark hpc | followDone hpc _ | followFailed hpc _
  | followWake hpc =>
    rw [hpc] at ha
    exact ha.elim
  | @finalize prev out deps hpc =>
    cases out <;> simp [Activation.moveTo, Pc.Files, finalizeOps, FilesOps, MicroOp.setsCell]
  | @updateDeps deps ops hpc =>
    rw [hpc] at ha
    refine FilesOps.mono (fun d hd => hfiled d ?_) ha.2
    simpa [World.modifyRuntime, World.modifyView, Runtime.updateQueryDeps] using .inl hd
  | @setCell st ops hpc =>
    have hsame := hsame (by rw [hpc]; rintro _ _ ⟨⟩)
    rw [hpc] at ha
    cases st with
    | ready r => exact FilesOps.mono hsame ha.2
    | _ => exact FilesOps.mono hsame ha
  | notifyCell hpc | putShared hpc | setEntry hpc _ | notifyEntry hpc _ | unregister hpc _ =>
    have hsame := hsame (by rw [hpc]; rintro _ _ ⟨⟩)
    rw [hpc] at ha
    exact FilesOps.mono hsame ha
  | unguarded hpc hop _ =>
    have hsame := hsame (by rw [hpc]; rcases hop with ⟨st, rfl⟩ | rfl | rfl <;> rintro _ _ ⟨⟩)
    rw [hpc] at ha
    rcases hop with ⟨st, rfl⟩ | rfl | rfl <;> exact FilesOps.mono hsame ha
  | _ => trivial

/-- **A step of an access registers what it stores.** -/
theorem ActStep.registered (h : ActStep S w view task below a w' (.goto a'))
    (hv : (w.views view).Registered)
    (ha : a.pc.Files fun d => (w.views view).runtime.reverseDeps d a.key = true)
    (hworks : a.pc.works → (w.state view a.key).isSettled = false) :
    (w'.views view).Registered := by
  rintro q d ⟨r, hr, hd⟩
  have hr' : w'.state view q = .ready r := hr
  by_cases hq : q = a.key
  · subst hq
    rcases h.graph with heq | ⟨deps, ops, hpc, heq⟩
    · rw [heq]
      rcases h.cellStep with hs | hs | ⟨started, o, hs⟩ | ⟨r₀, -, hs₀, hs⟩ | ⟨st, ops, hpc, hs⟩
      · exact hv _ d ⟨r, hs.symm.trans hr', hd⟩
      · cases hs.symm.trans hr'
      · cases hs.symm.trans hr'
      · cases hs.symm.trans hr'
        exact hv _ d ⟨r₀, hs₀, hd⟩
      · obtain rfl := hs.symm.trans hr'
        rw [hpc] at ha
        exact ha.1 d hd
    · -- nothing is ready where a list is being replaced
      rw [hpc] at ha hworks
      have hunsettled := hworks (by simp [Pc.works, Pc.owns, ha.1])
      rcases h.cellStep with hs | hs | ⟨started, o, hs⟩ | ⟨r₀, hpc', -, -⟩ | ⟨st, ops', hpc', -⟩
      · rw [hs.symm.trans hr'] at hunsettled
        cases hunsettled
      · cases hs.symm.trans hr'
      · cases hs.symm.trans hr'
      · rw [hpc] at hpc'
        cases hpc'
      · rw [hpc] at hpc'
        cases hpc'
  · have hs : w'.state view q = w.state view q :=
      congrArg ErasedCell.state (h.cell_other fun hk => hq hk.2)
    have hfiled := hv q d ⟨r, hs.symm.trans hr', hd⟩
    rcases h.graph with heq | ⟨deps, ops, -, heq⟩
    · rw [heq]
      exact hfiled
    · rw [heq]
      simpa [Runtime.updateQueryDeps, hq] using hfiled

end step

/-! ## 4. One access after another -/

/-- One access at most is in progress, and registers what it stores. -/
structure Filing (c : Config V) : Prop where
  alone : Alone c
  workers : Workers c
  top : ∀ t a below, (c.tasks t).stack = a :: below →
    a.pc.Files fun d => (c.world.views (c.tasks t).view).runtime.reverseDeps d a.key = true

theorem Filing.of_idle {c : Config V} (hidle : c.Idle) (hled : Led c) : Filing c where
  alone := ⟨hidle.single, hled, fun t => by rw [not_not.mp (hidle t)]; trivial⟩
  workers := .of_idle hidle
  top t a below hst := absurd (pending_of_stack hst) (hidle t)

section runs

variable [DecidableEq V] {S : Schema V} {c c' : Config V} {t : TaskId}

omit [DecidableEq V] in
theorem Alone.startsAlone (h : Alone c) (l : Label V) : StartsAlone c l := by
  rintro t a below rfl hst hpc - t' d pc ⟨b, hb, -, hkey, rfl⟩
  obtain ⟨-, rfl⟩ := h.eq_top hst hb hkey
  rw [hpc]
  rfl

/-- **A step of an access.** -/
theorem Filing.taskStep (h : Filing c) (hs : Config.step S c (.step t) = some c') :
    Filing c' ∧ ∀ i, (c.world.views i).Registered → (c'.world.views i).Registered := by
  have hstep := taskStep_of_step hs
  have hpend := hstep.same_access.1
  have halone := h.alone.step hs (.inl ⟨t, rfl⟩)
  have hworkers := h.workers.taskStep h.alone.led hstep (h.alone.startsAlone _)
  -- the other tasks are not running
  have hothers : ∀ t' a below, t' ≠ t → (c'.tasks t').stack ≠ a :: below := by
    intro t' a below ht hst
    rw [hstep.tasks_ne ht] at hst
    exact ht (h.alone.single t' t (pending_of_stack hst) hpend)
  suffices hmain : (∀ a below, (c'.tasks t).stack = a :: below →
      a.pc.Files fun d => (c'.world.views (c.tasks t).view).runtime.reverseDeps d a.key = true) ∧
        ∀ i, (c.world.views i).Registered → (c'.world.views i).Registered by
    refine ⟨⟨halone, hworkers, fun t' a below hst => ?_⟩, hmain.2⟩
    by_cases ht : t' = t
    · subst ht
      rw [hstep.same_access.2.1]
      exact hmain.1 a below hst
    · exact absurd hst (hothers t' a below ht)
  cases hstep with
  | @goto a a' below w hst ha =>
    have hfiles := h.top t a below hst
    refine ⟨fun b below' hst' => ?_, fun i hi => ?_⟩
    · obtain ⟨rfl, rfl⟩ : a' = b ∧ below = below' := by simpa [setTask] using hst'
      rw [ha.key]
      exact ha.files (fun d => id) hfiles fun prev hpc => h.alone.unfollowed hst hpc _
    · by_cases hview : i = (c.tasks t).view
      · subst hview
        refine ha.registered hi hfiles fun hw => ?_
        exact h.workers.unsettled _ _ _ _ _ ((active_top hst).mpr ⟨rfl, rfl, rfl⟩) hw
      · show (w.views i).Registered
        rw [ha.views_other hview]
        exact hi
  | @call a a' below w child hst ha =>
    obtain ⟨rfl, -⟩ := ha.call_pcOk .vacant
    refine ⟨fun b below' hst' => ?_, fun i hi => hi⟩
    obtain ⟨rfl, -⟩ : .enter child = b ∧ a' :: below = below' := by simpa [setTask] using hst'
    trivial
  | ret hst ha =>
    obtain rfl := ha.ret_world
    exact ⟨fun b below' hst' => by simp [setTask] at hst', fun i hi => hi⟩
  | @resume a p p' below w w' r hst ha hp =>
    obtain rfl := ha.ret_world
    have hnested := h.alone.nested t
    rw [hst] at hnested
    refine ⟨fun b below' hst' => ?_, fun i hi => ?_⟩
    · obtain ⟨rfl, -⟩ : p' = b ∧ below = below' := by simpa [setTask] using hst'
      exact hp.files (hnested.waits (List.mem_cons_self ..)) _
    · show (w'.views i).Registered
      rw [hp.views]
      exact hi

end runs

/-! ## 5. Loads and replays -/

section files

variable [DecidableEq V] {C : WalCodec V} {ingredients : List PersistableIngredient}
  {o : Order} {db db' : Database V}

/-- The cell of `q` is on file under all its dependencies. -/
def View.Linked (v : View V) (q : DynKey) : Prop :=
  ∀ d, v.Depends q d → v.runtime.reverseDeps d q = true

omit [DecidableEq V] in
theorem linked_restoreCell (kind : QueryKindId) (db : Database V) (key : Key) :
    (db.restoreCell kind key).cells = db.cells ∧ (db.restoreCell kind key).Linked ⟨kind, key⟩ ∧
      ∀ q, db.Linked q → (db.restoreCell kind key).Linked q := by
  unfold Database.restoreCell
  split
  · next r hr =>
    have hself : View.Linked { db.toView with
        runtime := db.runtime.updateQueryDeps ⟨kind, key⟩ r.deps } ⟨kind, key⟩ := by
      rintro d ⟨r', hr', hd⟩
      rw [hr'] at hr
      cases hr
      simp [Runtime.updateQueryDeps, hd]
    refine ⟨rfl, hself, fun q hq => ?_⟩
    by_cases heq : q = ⟨kind, key⟩
    · exact heq ▸ hself
    · intro d hd
      simpa [Runtime.updateQueryDeps, heq] using hq d hd
  · next hnone =>
    refine ⟨rfl, ?_, fun q hq => hq⟩
    rintro d ⟨r, hr, -⟩
    rw [hr] at hnone
    cases hnone

omit [DecidableEq V] in
theorem linked_restoreCells (kind : QueryKindId) (keys : List Key) (db : Database V) :
    (keys.foldl (Database.restoreCell kind) db).cells = db.cells ∧
      (∀ key ∈ keys, (keys.foldl (Database.restoreCell kind) db).Linked ⟨kind, key⟩) ∧
      ∀ q, db.Linked q → (keys.foldl (Database.restoreCell kind) db).Linked q := by
  induction keys generalizing db with
  | nil => exact ⟨rfl, fun _ h => absurd h List.not_mem_nil, fun _ => id⟩
  | cons key keys ih =>
    obtain ⟨hcells, hself, hkept⟩ := linked_restoreCell kind db key
    obtain ⟨hcells', hself', hkept'⟩ := ih (db.restoreCell kind key)
    refine ⟨hcells'.trans hcells, fun key' hkey' => ?_, fun q hq => hkept' q (hkept q hq)⟩
    rcases List.mem_cons.mp hkey' with rfl | hkey'
    · exact hkept' _ hself
    · exact hself' key' hkey'

omit [DecidableEq V] in
theorem linked_restoreRuntimeState (ingredients : List PersistableIngredient) (db : Database V) :
    (ingredients.foldl (Database.restoreRuntimeState o) db).cells = db.cells ∧
      (∀ p ∈ ingredients, p.sectionType = .derived → ∀ key ∈ o.cells p.kind,
        (ingredients.foldl (Database.restoreRuntimeState o) db).Linked ⟨p.kind, key⟩) ∧
      ∀ q, db.Linked q → (ingredients.foldl (Database.restoreRuntimeState o) db).Linked q := by
  induction ingredients generalizing db with
  | nil => exact ⟨rfl, fun _ h => absurd h List.not_mem_nil, fun _ => id⟩
  | cons p rest ih =>
    have hhead : (Database.restoreRuntimeState o db p).cells = db.cells ∧
        (p.sectionType = .derived → ∀ key ∈ o.cells p.kind,
          (Database.restoreRuntimeState o db p).Linked ⟨p.kind, key⟩) ∧
        ∀ q, db.Linked q → (Database.restoreRuntimeState o db p).Linked q := by
      unfold Database.restoreRuntimeState
      cases p.sectionType with
      | derived =>
        obtain ⟨hcells, hself, hkept⟩ := linked_restoreCells p.kind (o.cells p.kind) db
        exact ⟨hcells, fun _ => hself, hkept⟩
      | input | interned => exact ⟨rfl, nofun, fun _ => id⟩
    obtain ⟨hcells, hself, hkept⟩ := ih (Database.restoreRuntimeState o db p)
    refine ⟨hcells.trans hhead.1, fun j hj htype key hkey => ?_,
      fun q hq => hkept q (hhead.2.2 q hq)⟩
    rcases List.mem_cons.mp hj with rfl | hj
    · exact hkept _ (hhead.2.1 htype key hkey)
    · exact hself j hj htype key hkey

omit [DecidableEq V] in
/-- **The lists of the listed ingredients are registered**, and those of the others are kept. -/
theorem registered_restoreRuntimeState
    (hcovers : o.Covers (ingredients.foldl (Database.restoreRuntimeState o) db).toView)
    (hother : ∀ q, (∀ p ∈ ingredients, p.sectionType = .derived → p.kind ≠ q.kind) →
      db.Linked q) : (ingredients.foldl (Database.restoreRuntimeState o) db).Registered := by
  obtain ⟨-, hself, hkept⟩ := linked_restoreRuntimeState (o := o) ingredients db
  intro q d hd
  by_cases hlist : ∃ p ∈ ingredients, p.sectionType = .derived ∧ p.kind = q.kind
  · obtain ⟨p, hp, htype, hkind⟩ := hlist
    obtain ⟨r, hr, hmem⟩ := hd
    obtain ⟨kind, key⟩ := q
    obtain rfl : p.kind = kind := hkind
    exact hself p hp htype key (hcovers _ r hr) d ⟨r, hr, hmem⟩
  · exact hkept q (hother q fun p hp htype hkind => hlist ⟨p, hp, htype, hkind⟩) d hd

/-- **A load that applies the file registers what it loads.** -/
theorem registered_loadCacheInner {maxBytes : Option Nat} {file : FileRead}
    (hdb : db.Registered)
    (hcovers : o.Covers (db.loadCacheInner C.toCodec o ingredients maxBytes file).2.toView)
    (hload : (db.loadCacheInner C.toCodec o ingredients maxBytes file).2 = db ∨
      (∃ b, (db.loadCacheInner C.toCodec o ingredients maxBytes file).1 = .ok b) ∧
        ∀ q d, db.Depends q d → ∃ p ∈ ingredients, p.sectionType = .derived ∧ p.kind = q.kind) :
    (db.loadCacheInner C.toCodec o ingredients maxBytes file).2.Registered := by
  rcases hload with heq | ⟨⟨b, hok⟩, hlists⟩
  · rw [heq]
    exact hdb
  · unfold Database.loadCacheInner at hok hcovers ⊢
    cases hopen : openCache C.toCodec ingredients maxBytes file with
    | error e =>
      simp only [hopen] at hok
      cases hok
    | ok found =>
      cases found with
      | none => exact hdb
      | some cache =>
        simp only [hopen] at hok hcovers ⊢
        have hspares : Database.Spares ingredients db
            ((db.cleared ingredients).loadSections C.toCodec ingredients cache.sections).2 :=
          (Database.spares_cleared db).trans (Database.spares_loadSections cache.sections _)
        generalize (db.cleared ingredients).loadSections C.toCodec ingredients cache.sections = res
          at hok hcovers hspares ⊢
        obtain ⟨_ | _, db₂⟩ := res
        · cases hok
        · refine registered_restoreRuntimeState hcovers fun q hno d hd => ?_
          -- what is not listed has no dependencies
          obtain ⟨r, hr, hmem⟩ := hd
          rw [hspares.cells q hno] at hr
          obtain ⟨p, hp, htype, hkind⟩ := hlists q d ⟨r, hr, hmem⟩
          exact absurd hkind (hno p hp htype)

/-- What an entry leaves alone: the runtime, and the cells of ingredients that are not listed. -/
theorem spares_applyWalEntry {p : PersistableIngredient} (hp : p ∈ ingredients) {rev : Revision}
    {key : Bytes} {value : Option Bytes} (h : db.applyWalEntry C p rev key value = .ok db') :
    db'.runtime = db.runtime ∧ ∀ q, (∀ p ∈ ingredients, p.sectionType = .derived →
      p.kind ≠ q.kind) → db'.cells q = db.cells q := by
  unfold Database.applyWalEntry at h
  cases htype : p.sectionType with
  | input =>
    simp only [htype] at h
    cases hkey : C.decodeKey p.kind key with
    | error e =>
      rw [hkey] at h
      cases h
    | ok k =>
      rw [hkey] at h
      cases value with
      | none =>
        cases h
        exact ⟨rfl, fun _ _ => rfl⟩
      | some bytes =>
        cases hv : C.decodeValue p.kind bytes with
        | error e =>
          simp [hv, bind, Except.bind] at h
        | ok v =>
          simp only [hv, bind, Except.bind, pure, Except.pure] at h
          cases h
          exact ⟨rfl, fun _ _ => rfl⟩
  | derived =>
    simp only [htype] at h
    have hother : ∀ {q k : _} {cell : ErasedCell V}, (∀ p ∈ ingredients,
        p.sectionType = .derived → p.kind ≠ q.kind) →
          Function.update db.cells ⟨p.kind, k⟩ cell q = db.cells q := by
      intro q k cell hq
      refine Function.update_of_ne ?_ ..
      rintro rfl
      exact hq p hp htype rfl
    cases hkey : C.decodeKey p.kind key with
    | error e =>
      rw [hkey] at h
      cases h
    | ok k =>
      rw [hkey] at h
      cases value with
      | none =>
        cases h
        exact ⟨rfl, fun q hq => hother hq⟩
      | some bytes =>
        cases hv : C.decodeDerived p.kind bytes with
        | error e =>
          simp [hv, bind, Except.bind] at h
        | ok v =>
          simp only [hv, bind, Except.bind, pure, Except.pure] at h
          cases h
          exact ⟨rfl, fun q hq => hother hq⟩
  | interned =>
    simp only [htype] at h
    cases value with
    | none =>
      cases h
      exact ⟨rfl, fun _ _ => rfl⟩
    | some bytes =>
      cases hv : C.decodeInterned p.kind bytes with
      | error e =>
        simp [hv, bind, Except.bind] at h
      | ok v =>
        simp only [hv, bind, Except.bind, pure, Except.pure] at h
        cases h
        exact ⟨rfl, fun _ _ => rfl⟩

theorem spares_applyEntry {entry : WalEntry}
    (h : db.applyEntry C ingredients entry = .ok (some db')) :
    db'.runtime = db.runtime ∧ ∀ q, (∀ p ∈ ingredients, p.sectionType = .derived →
      p.kind ≠ q.kind) → db'.cells q = db.cells q := by
  unfold Database.applyEntry at h
  split at h
  · cases h
  · next p hfind =>
    have hp : p ∈ ingredients := List.mem_reverse.mp (List.mem_of_find?_eq_some hfind)
    have hmap : ∀ {res : PicanteResult (Database V)}, res.map some = .ok (some db') →
        res = .ok db' := by
      rintro (e | db₁) hres <;> cases hres
      rfl
    cases hop : entry.operation with
    | set key value =>
      simp only [hop] at h
      exact spares_applyWalEntry hp (hmap h)
    | delete key =>
      simp only [hop] at h
      exact spares_applyWalEntry hp (hmap h)

variable (C ingredients) in
/-- What the entries of a log leave alone. -/
theorem spares_replayEntries (db : Database V) (n : Nat) (m : Revision) (bytes : Bytes) :
    (db.replayEntries C ingredients n m bytes).2.runtime = db.runtime ∧
      ∀ q, (∀ p ∈ ingredients, p.sectionType = .derived → p.kind ≠ q.kind) →
        (db.replayEntries C ingredients n m bytes).2.cells q = db.cells q := by
  fun_induction Database.replayEntries C ingredients db n m bytes with
  | case7 db n m bytes payload rest hframe entry hdecode db₁ happly ih =>
    obtain ⟨hruntime, hcells⟩ := spares_applyEntry happly
    obtain ⟨hruntime', hcells'⟩ := ih
    exact ⟨hruntime'.trans hruntime, fun q hq => (hcells' q hq).trans (hcells q hq)⟩
  | case6 db n m bytes payload rest hframe entry hdecode hskip ih => exact ih
  | _ => exact ⟨rfl, fun _ _ => rfl⟩

/-- **A replay that applies the log registers what it brings.** -/
theorem registered_replayWal {file : FileRead} (hdb : db.Registered)
    (hcovers : o.Covers (db.replayWal C o ingredients file).2.toView)
    (hreplay : (db.replayWal C o ingredients file).2 = db ∨
      ∃ n, (db.replayWal C o ingredients file).1 = .ok n) :
    (db.replayWal C o ingredients file).2.Registered := by
  rcases hreplay with heq | ⟨n, hok⟩
  · rw [heq]
    exact hdb
  · unfold Database.replayWal at hok hcovers ⊢
    cases file with
    | notFound => exact hdb
    | failed message => cases hok
    | read bytes =>
      simp only at hok hcovers ⊢
      cases hopen : C.openWal bytes with
      | error e =>
        simp only [hopen] at hok
        cases hok
      | ok log =>
        obtain ⟨header, rest⟩ := log
        simp only [hopen] at hok hcovers ⊢
        split at hok
        · cases hok
        · next hbase =>
          rw [if_neg hbase] at hcovers ⊢
          obtain ⟨hruntime, hcells⟩ := spares_replayEntries C ingredients db 0
            header.baseRevision rest
          generalize db.replayEntries C ingredients 0 header.baseRevision rest = res at *
          obtain ⟨_ | ⟨count, maxRevision⟩, db₁⟩ := res
          · cases hok
          · refine registered_restoreRuntimeState hcovers fun q hno => ?_
            have hlinked : db₁.Linked q := by
              rintro d ⟨r, hr, hd⟩
              rw [hcells q hno] at hr
              rw [hruntime]
              exact hdb q d ⟨r, hr, hd⟩
            split
            · exact hlinked
            · exact hlinked

end files

/-! ## 6. Runs -/

theorem View.Registered.framed {v v' : View V} (h : v.Registered)
    (hcells : ∀ q, (v'.cells q).state = (v.cells q).state)
    (hreverse : v'.runtime.reverseDeps = v.runtime.reverseDeps) : v'.Registered := by
  rintro q d ⟨r, hr, hd⟩
  rw [hreverse]
  exact h q d ⟨r, (hcells q).symm.trans hr, hd⟩

/-- A change of an input leaves the cells and the graphs of the views as they are. -/
theorem mutateWorld_frame [DecidableEq V] (w : World V) (view : ViewId) (k : DynKey)
    (value : Option V) (i : ViewId) :
    ((mutateWorld w view k value).views i).cells = (w.views i).cells ∧
      ((mutateWorld w view k value).views i).runtime.reverseDeps =
        (w.views i).runtime.reverseDeps := by
  unfold mutateWorld
  split
  · exact ⟨rfl, rfl⟩
  · by_cases hi : i = view
    · subst hi
      simp only [World.storeInput, World.markDivergent, World.modifyRuntime, World.modifyView,
        Function.update_self, Runtime.markDivergent, Runtime.bumpRevision]
      split <;> simp
    · simp [World.storeInput, World.markDivergent, World.modifyRuntime, World.modifyView, hi]

theorem View.Registered.mutate [DecidableEq V] {w : World V} {i : ViewId}
    (h : (w.views i).Registered) (view : ViewId) (k : DynKey) (value : Option V) :
    ((mutateWorld w view k value).views i).Registered := by
  obtain ⟨hcells, hreverse⟩ := mutateWorld_frame w view k value i
  exact h.framed (fun q => by rw [hcells]) hreverse

/-- One access after another, and every ready cell of view `i` is on file. -/
structure Noted (i : ViewId) (c : Config V) : Prop where
  filing : Filing c
  registered : (c.world.views i).Registered

theorem noted_init (i : ViewId) : Noted i (init : Config V) where
  filing := .of_idle idle_init led_init
  registered := by
    rintro q d ⟨r, hr, -⟩
    cases hr

section noted

variable [DecidableEq V] {S : Schema V} {C : WalCodec V} {ingredients : List PersistableIngredient}
  {c c' : Config V} {i : ViewId}

omit [DecidableEq V] in
/-- A view is replaced between two accesses. -/
theorem Noted.replaced (h : Noted i c) (hidle : c.Idle) {w : World V}
    (hw : w.registry = c.world.registry) (hregistered : (w.views i).Registered) :
    Noted i { c with world := w } where
  filing := .of_idle hidle (h.filing.alone.led.framed w c.mutators hw)
  registered := hregistered

/-- A sequential step of the system. -/
theorem Noted.label {l : Label V} (h : Noted i c) (hs : Config.step S c l = some c')
    (hl : Picante.Sequential c l c')
    (hregisters : Usage.Registers C ingredients i c (.label l)) : Noted i c' := by
  rcases hl with ⟨t, rfl⟩ | ⟨hidle, hop⟩
  · obtain ⟨hfiling, hviews⟩ := h.filing.taskStep hs
    exact ⟨hfiling, hviews i h.registered⟩
  · cases l with
    | spawn view key want =>
      have halone := h.filing.alone.step hs (.inr ⟨hidle, hop⟩)
      have hworkers :=
        h.filing.workers.step h.filing.alone.led hs rfl (h.filing.alone.startsAlone _)
      obtain ⟨htask, -, hothers⟩ := spawned_alone hs hidle
      refine ⟨⟨halone, hworkers, fun t a below hst => ?_⟩, ?_⟩
      · obtain rfl : t = c.taskCount :=
          Classical.byContradiction fun hne => hothers t hne (pending_of_stack hst)
        rw [htask] at hst
        obtain ⟨rfl, -⟩ : .enter key = a ∧ [] = below := by simpa using hst
        trivial
      · simp only [Config.step] at hs
        split at hs <;> cases hs
        exact h.registered
    | mutate view key value =>
      simp only [Config.step] at hs
      split at hs <;> cases hs
      refine h.replaced hidle ?_ (h.registered.mutate view key value)
      unfold mutateWorld
      split <;> rfl
    | intern kind value =>
      cases hs
      exact h.replaced hidle rfl h.registered
    | bump view =>
      simp only [Config.step] at hs
      split at hs <;> cases hs
      refine h.replaced hidle rfl ?_
      by_cases hi : i = view
      · subst hi
        refine h.registered.framed ?_ ?_ <;> simp [World.modifyRuntime, World.modifyView,
          Runtime.bumpRevision]
      · simpa [World.modifyRuntime, World.modifyView, hi] using h.registered
    | snapshot =>
      cases hs
      refine h.replaced hidle rfl ?_
      by_cases hi : i = c.world.viewCount
      · subst hi
        -- none of the cells it starts with has dependencies
        rintro q d ⟨r, hr, hd⟩
        simp only [World.snapshot, Function.update_self] at hr
        exact absurd ⟨r, ErasedCell.ready_of_snapshot hr, hd⟩ (hregisters rfl q d)
      · simpa [World.snapshot, hi] using h.registered
    | step t | drop t | «begin» view key value | advance m => cases hop

/-- **What happens to the views keeps the books of view `i`**, if it brings no cell into it that is
not on file there. -/
theorem Noted.use {u : Usage V} (h : Noted i c) (hs : c.use S C ingredients u = some c')
    (hu : u.Sequential c c') (hregisters : u.Registers C ingredients i c) : Noted i c' := by
  cases u with
  | label l => exact h.label hs hu hregisters
  | promote view key record =>
    simp only [Config.use] at hs
    split at hs <;> cases hs
    refine h.replaced hu rfl ?_
    by_cases hi : i = view
    · subst hi
      rintro q d ⟨r, hr, hd⟩
      simp only [World.insertReadyRecord, World.modifyView, Function.update_self] at hr ⊢
      by_cases hq : q = key
      · subst hq
        rw [Function.update_self] at hr
        cases hr
        exact hregisters rfl d hd
      · rw [Function.update_of_ne hq] at hr
        exact h.registered q d ⟨r, hr, hd⟩
    · simpa [World.insertReadyRecord, World.modifyView, hi] using h.registered
  | load view o options file =>
    simp only [Config.use] at hs
    split at hs <;> cases hs
    obtain ⟨hidle, hcovers⟩ := hu
    refine h.replaced hidle rfl ?_
    by_cases hi : i = view
    · subst hi
      have hreg : (((c.world.viewDatabase i).loadCacheWithOptions C.toCodec o ingredients options
          file).database).Registered := by
        simp only [World.replaceView, Function.update_self, database_loadCacheWithOptions]
          at hcovers ⊢
        exact registered_loadCacheInner h.registered hcovers (hregisters rfl)
      simpa [World.replaceView] using hreg
    · simpa [World.replaceView, hi] using h.registered
  | replay view o file =>
    simp only [Config.use] at hs
    split at hs <;> cases hs
    obtain ⟨hidle, hcovers⟩ := hu
    refine h.replaced hidle rfl ?_
    by_cases hi : i = view
    · subst hi
      simp only [World.replaceView, Function.update_self] at hcovers
      have hreg := registered_replayWal h.registered hcovers
        (hregisters rfl)
      simpa [World.replaceView] using hreg
    · simpa [World.replaceView, hi] using h.registered

/-- A run of views whose steps bring no unregistered cell into view `i` keeps its books. -/
theorem registered_run {us : List (Usage V)}
    (h : Trans.Steps (Config.use S C ingredients)
      (fun c u c' => u.Sequential c c' ∧ u.Registers C ingredients i c) init us c) : Noted i c :=
  Trans.Steps.invariant h (noted_init i) fun _ _ _ hm hs hok => hm.use hs hok.1 hok.2

end noted

/-- **Invalidation events reach every cached dependent.**  In any run of a family of views, one
operation after another, that brings no ready cell into view `i` whose list is not on file there,
an effective `set` or `remove` of a slot of the view emits a `QueryInvalidated` event for every
derived cell that depends on the slot, directly or through other ready cells of the view. -/
theorem invalidation_reaches_every_dependent [DecidableEq V] {S : Schema V} {C : WalCodec V}
    {ingredients : List PersistableIngredient} {i : ViewId} {us : List (Usage V)} {c c' : Config V}
    (hrun : Trans.Steps (Config.use S C ingredients)
      (fun c u c' => u.Sequential c c' ∧ u.Registers C ingredients i c) init us c)
    {k : DynKey} {value : Option V}
    (hset : Config.step S c (.mutate i k value) = some c')
    (heff : noChange (c.world.inputs i) k value = false)
    {o : GraphOrder} (ho : o.Lists (c'.world.views i).runtime) {q : DynKey}
    (hq : S.sectionType q.kind = .derived)
    (hdep : Relation.TransGen (c.world.views i).Depends q k) :
    .queryInvalidated (c'.world.rev i) q k ∈ mutateEvents c.world o i k value := by
  have hnoted := registered_run hrun
  have hregistered := hnoted.registered.mutate i k value
  simp only [Config.step] at hset
  split at hset <;> cases hset
  next hin =>
  refine mem_mutateEvents heff (mem_propagateInvalidation hregistered ho ?_ ?_ _)
  · have hcells := (mutateWorld_frame c.world i k value i).1
    unfold View.Depends
    rw [hcells]
    exact hdep
  · rintro rfl
    rw [hin.2] at hq
    cases hq

namespace Registering

open Cutoff (parity)
open Cancellation (x)

def codec : WalCodec Nat := .ofTable ⟨[], [], [], []⟩ [] ⟨[], [], []⟩

/-- `parity` is computed for 1. -/
def seen : List (Usage Nat) :=
  [.mutate 0 x (some 1), .spawn 0 parity true].map .label ++
    List.replicate 16 (.label (.step 0))

/-- `parity` is computed for 1 on a snapshot, and its record is promoted into the database. -/
def promoted : List (Usage Nat) :=
  [.mutate 0 x (some 1), .snapshot, .spawn 1 parity true].map .label ++
    List.replicate 16 (.label (.step 0)) ++ [.promote 0 parity ⟨1, 1, 1, [x]⟩]

/-- What the cell of `parity` holds. -/
def one : ReadyRecord Nat := ⟨1, 1, 1, [x], false⟩

/-- The step comes when nothing else is running; it files no query of the database but `keys`. -/
def timely (keys : List DynKey) (c : Config Nat) : Usage Nat → Bool
  | .label (.step t) =>
    (c.tasks t).view != 0 || (c.tasks t).stack.head?.all fun a => decide (a.key ∈ keys)
  | .label .snapshot => c.quiet && decide (0 < c.world.viewCount)
  | .label l => c.quiet && l.isOperation
  | .promote .. => c.quiet
  | .load .. | .replay .. => false

/-- The graph of the database has no queries but `keys`. -/
def FiledIn (keys : List DynKey) (c : Config Nat) : Prop :=
  ∀ d q, (c.world.views 0).runtime.reverseDeps d q = true → q ∈ keys

/-- An order of a graph that has no queries but `keys`. -/
def order (keys : List DynKey) (r : Runtime) : GraphOrder :=
  ⟨keys, fun d => keys.filter (r.reverseDeps d ·)⟩

theorem lists_order {keys : List DynKey} {r : Runtime}
    (h : ∀ d q, r.reverseDeps d q = true → q ∈ keys) : (order keys r).Lists r where
  dependents d q := by
    rw [order, List.mem_filter]
    exact ⟨And.right, fun hq => ⟨h d q hq, hq⟩⟩
  queries := h

theorem filedIn_step {keys : List DynKey} {c c' : Config Nat} {l : Label Nat}
    (h : FiledIn keys c) (hs : Config.step Cutoff.schema c l = some c')
    (hl : timely keys c (.label l) = true) : FiledIn keys c' := by
  cases l with
  | step t =>
    rcases (taskStep_of_step hs).graph 0 with heq | ⟨a, below, deps, hst, hview, heq⟩
    · intro d q hq
      exact h d q (heq ▸ hq)
    · -- the query whose list is registered is one of the keys
      have hkey : a.key ∈ keys := by simpa [timely, hst, ← hview] using hl
      intro d q hq
      rw [heq] at hq
      by_cases hself : q = a.key
      · exact hself ▸ hkey
      · exact h d q (by simpa [Runtime.updateQueryDeps, hself] using hq)
  | spawn view key want =>
    simp only [Config.step] at hs
    split at hs <;> cases hs
    exact h
  | mutate view key value =>
    simp only [Config.step] at hs
    split at hs <;> cases hs
    intro d q hq
    rw [(mutateWorld_frame ..).2] at hq
    exact h d q hq
  | intern kind value =>
    cases hs
    exact h
  | bump view =>
    simp only [Config.step] at hs
    split at hs <;> cases hs
    intro d q hq
    by_cases hview : 0 = view
    · subst hview
      exact h d q (by simpa [World.modifyRuntime, World.modifyView, Runtime.bumpRevision] using hq)
    · exact h d q (by simpa [World.modifyRuntime, World.modifyView, hview] using hq)
  | snapshot =>
    cases hs
    have hviews : 0 ≠ c.world.viewCount := by
      have := (Bool.and_eq_true_iff.mp hl).2
      exact Nat.ne_of_lt (of_decide_eq_true this)
    intro d q hq
    exact h d q (by simpa [World.snapshot, hviews] using hq)
  | drop t | «begin» view key value | advance m => simp [timely, Label.isOperation] at hl

theorem sequential_of_timely {keys : List DynKey} {c c' : Config Nat} {u : Usage Nat}
    (h : Led c ∧ FiledIn keys c) (hs : c.use Cutoff.schema codec [] u = some c')
    (hu : timely keys c u = true) : (Led c' ∧ FiledIn keys c') ∧ u.Sequential c c' := by
  cases u with
  | label l =>
    refine ⟨⟨led_step h.1 hs, filedIn_step h.2 hs hu⟩, ?_⟩
    cases l with
    | step t => exact .inl ⟨t, rfl⟩
    | snapshot => exact .inr ⟨h.1.idle (Bool.and_eq_true_iff.mp hu).1, rfl⟩
    | _ => exact .inr ⟨h.1.idle (Bool.and_eq_true_iff.mp hu).1, (Bool.and_eq_true_iff.mp hu).2⟩
  | promote view key record =>
    simp only [Config.use] at hs
    split at hs <;> cases hs
    refine ⟨⟨h.1.framed _ c.mutators rfl, fun d q hq => h.2 d q ?_⟩, h.1.idle hu⟩
    by_cases hview : 0 = view
    · subst hview
      simpa [World.insertReadyRecord, World.modifyView] using hq
    · simpa [World.insertReadyRecord, World.modifyView, hview] using hq
  | load view o options file => cases hu
  | replay view o file => cases hu

theorem registers_of_mem_seen (C : WalCodec Nat) (ingredients : List PersistableIngredient)
    {i : ViewId} {c : Config Nat} {u : Usage Nat} (hu : u ∈ seen) :
    u.Registers C ingredients i c := by
  simp only [seen, List.map_cons, List.map_nil, List.mem_append, List.mem_cons, List.not_mem_nil,
    or_false, List.mem_replicate] at hu
  rcases hu with (rfl | rfl) | ⟨-, rfl⟩ <;> trivial

theorem filedIn_init (keys : List DynKey) : Led (init : Config Nat) ∧ FiledIn keys init :=
  ⟨led_init, fun _ _ => nofun⟩

end Registering

open Registering in
open Cutoff (parity) in
open Cancellation (x) in
/-- Whoever shows `parity` is told that `x` has changed. -/
theorem parity_is_invalidated :
    ∃ c c' o, Trans.run (Config.use Cutoff.schema codec []) init seen = some c ∧
      Config.step Cutoff.schema c (.mutate 0 x (some 2)) = some c' ∧
      o.Lists (c'.world.views 0).runtime ∧
      .queryInvalidated (c'.world.rev 0) parity x ∈ mutateEvents c.world o 0 x (some 2) := by
  have hrun : (Trans.run (fun c u => if timely [parity] c u then c.use Cutoff.schema codec [] u
      else none) init seen).any (fun c => noChange (c.world.inputs 0) x (some 2) = false ∧
        c.world.state 0 parity = .ready one ∧
        (Config.step Cutoff.schema c (.mutate 0 x (some 2))).isSome) := by
    decide +kernel
  obtain ⟨c, hc, hrun⟩ := (Option.any_eq_true ..).mp hrun
  obtain ⟨heff, hr, hs⟩ := of_decide_eq_true hrun
  obtain ⟨c', hs⟩ := Option.isSome_iff_exists.mp hs
  obtain ⟨hsteps, -, hfiled⟩ : Trans.Steps (Config.use Cutoff.schema codec [])
      (fun c u c' => u.Sequential c c' ∧ u.Registers codec [] 0 c) init seen c ∧
        Led c ∧ FiledIn [parity] c :=
    (Trans.Steps.of_checked_run _ hc).strengthen (filedIn_init [parity]) fun _ _ _ hm hl hok =>
      (sequential_of_timely hm hl hok.2).imp id fun hseq =>
        ⟨hseq, registers_of_mem_seen codec [] hok.1⟩
  have ho : (order [parity] (c'.world.views 0).runtime).Lists (c'.world.views 0).runtime := by
    refine lists_order fun d q hq => hfiled d q ?_
    simp only [Config.step] at hs
    split at hs <;> cases hs
    rwa [(mutateWorld_frame ..).2] at hq
  exact ⟨c, c', _, hsteps.run, hs, ho, invalidation_reaches_every_dependent hsteps hs heff ho rfl
    (.single ⟨one, hr, List.mem_singleton.mpr rfl⟩)⟩

open Registering in
open Cutoff (parity) in
open Cancellation (x) in
/-- **A promoted record is missed**: the record of `parity` was promoted from a snapshot, and a
change of `x` does not tell of it. -/
theorem promoted_dependent_is_missed :
    ¬ ∀ (us : List (Usage Nat)) (c c' : Config Nat) (i : ViewId) (k q : DynKey)
      (value : Option Nat) (o : GraphOrder),
      Trans.Steps (Config.use Cutoff.schema codec []) (fun c u c' => u.Sequential c c') init us c →
      Config.step Cutoff.schema c (.mutate i k value) = some c' →
      noChange (c.world.inputs i) k value = false → o.Lists (c'.world.views i).runtime →
      Cutoff.schema.sectionType q.kind = .derived →
      Relation.TransGen (c.world.views i).Depends q k →
      .queryInvalidated (c'.world.rev i) q k ∈ mutateEvents c.world o i k value := by
  intro h
  have hrun : (Trans.run (fun c u => if timely [] c u then c.use Cutoff.schema codec [] u
      else none) init promoted).any (fun c => noChange (c.world.inputs 0) x (some 2) = false ∧
        c.world.state 0 parity = .ready one ∧
        mutateEvents c.world ⟨[], fun _ => []⟩ 0 x (some 2) = [.revisionBumped 2, .inputSet 2 x] ∧
        (Config.step Cutoff.schema c (.mutate 0 x (some 2))).isSome) := by
    decide +kernel
  obtain ⟨c, hc, hrun⟩ := (Option.any_eq_true ..).mp hrun
  obtain ⟨heff, hr, hevents, hs⟩ := of_decide_eq_true hrun
  obtain ⟨c', hs⟩ := Option.isSome_iff_exists.mp hs
  obtain ⟨hsteps, -, hfiled⟩ := (Trans.Steps.of_checked_run _ hc).strengthen (filedIn_init [])
    fun _ _ _ hm hl hok => sequential_of_timely hm hl hok.2
  have ho : (order [] (c'.world.views 0).runtime).Lists (c'.world.views 0).runtime := by
    refine lists_order fun d q hq => hfiled d q ?_
    simp only [Config.step] at hs
    split at hs <;> cases hs
    rwa [(mutateWorld_frame ..).2] at hq
  have hmissed := h _ c c' 0 x parity (some 2) _ hsteps hs heff ho rfl
    (.single ⟨one, hr, List.mem_singleton.mpr rfl⟩)
  change _ ∈ mutateEvents c.world ⟨[], fun _ => []⟩ 0 x (some 2) at hmissed
  simp [hevents] at hmissed

end Picante

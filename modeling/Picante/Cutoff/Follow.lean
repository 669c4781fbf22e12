/-
# Followers and `changed_at`

While nobody changes them, the views of a family that are at one revision can be accessed
concurrently: an access leads a computation, adopts a shared record, or follows the leader of
another view.  A result takes its `changed_at` from the value the cell held when the access put
it in state running.  A follower resets its cell, so that value is lost to whoever starts on the
cell next.  Where nobody starts on a cell that was reset, all these routes compare with the same
value, and an equal result keeps its `changed_at` (`followers_keep_changed_at`).

* `Phase` -- such an interleaving: its revision, its views, and what the cells held before it.
* `Phase.ConfigOk` -- what the accesses, the shared cache and the registry know of that.
-/
import Picante.Cutoff.Law
import Picante.Cutoff.Workers

namespace Picante

open Config

variable {V : Type}

/-! ## 1. What is known of a phase -/

/-- Equal values have changed at the same revision. -/
def Consistent (base : Previous V) (x : V × Revision) : Prop :=
  ∀ D, base = some D → x.1 = D.1 → x.2 = D.2

theorem Lawful.consistent {base : Previous V} {rev : Revision} {x : V × Revision}
    (h : Lawful base rev x) : Consistent base x := by
  intro D hD heq
  rcases h D hD with rfl | ⟨hne, -⟩
  · rfl
  · exact absurd heq hne

/-- An interleaving of accesses on views that nobody changes: the revision and the scope of the
views, the first entry made in it, the views, and what their cells held before. -/
structure Phase (V : Type) where
  rev : Revision
  scope : RuntimeId
  firstEntry : EntryId
  views : ViewId → Prop
  base : DynKey → Previous V

/-- Entries are made one after another, and keep their keys. -/
structure Registry.Extends (R R' : Registry V) : Prop where
  next : R.nextEntry ≤ R'.nextEntry
  key : ∀ e, e < R.nextEntry → (R'.entries e).key = (R.entries e).key

namespace Registry.Extends

variable {R R' R'' : Registry V}

theorem refl (R : Registry V) : R.Extends R := ⟨Nat.le_refl _, fun _ _ => rfl⟩

theorem trans (h : R.Extends R') (h' : R'.Extends R'') : R.Extends R'' :=
  ⟨Nat.le_trans h.next h'.next, fun e he =>
    (h'.key e (Nat.lt_of_lt_of_le he h.next)).trans (h.key e he)⟩

theorem lead (R : Registry V) (k : InFlightKey) (leader : ViewId) :
    R.Extends (R.lead k leader) := by
  refine ⟨Nat.le_succ _, fun e he => ?_⟩
  simp [Registry.lead, Nat.ne_of_lt he]

theorem setState (R : Registry V) (e : EntryId) (st : InFlightState V) :
    R.Extends (R.setState e st) := by
  refine ⟨Nat.le_refl _, fun e' _ => ?_⟩
  by_cases h : e' = e
  · subst h
    simp [Registry.setState]
  · simp [Registry.setState, h]

theorem notify (R : Registry V) (e : EntryId) : R.Extends (R.notify e) := by
  refine ⟨Nat.le_refl _, fun e' _ => ?_⟩
  by_cases h : e' = e
  · subst h
    simp [Registry.notify]
  · simp [Registry.notify, h]

theorem remove (R : Registry V) (k : InFlightKey) : R.Extends (R.remove k) :=
  ⟨Nat.le_refl _, fun _ _ => rfl⟩

theorem cancel (R : Registry V) (g : InFlightGuard) : R.Extends (R.cancel g) :=
  ((setState R _ _).trans (notify ..)).trans (remove ..)

end Registry.Extends

/-- The entry was made for `q`, and no earlier than `first`. -/
def Registry.MadeFrom (first : EntryId) (R : Registry V) (e : EntryId) (q : DynKey) : Prop :=
  first ≤ e ∧ e < R.nextEntry ∧ (R.entries e).key.query = q

theorem Registry.MadeFrom.mono {first e : EntryId} {R R' : Registry V} {q : DynKey}
    (h : R.MadeFrom first e q) (hR : R.Extends R') : R'.MadeFrom first e q := by
  obtain ⟨hfirst, hnext, hkey⟩ := h
  exact ⟨hfirst, Nat.lt_of_lt_of_le hnext hR.next, (congrArg (·.query) (hR.key e hnext)).trans hkey⟩

/-- The entries from `first` on are filed for their keys, and end with results that are `Good`. -/
structure Registry.Carries (first : EntryId) (Good : DynKey → V → List Dep → Revision → Prop)
    (R : Registry V) : Prop where
  next : first ≤ R.nextEntry
  filed : ∀ k e, R.filed k = some e → R.MadeFrom first e k.query
  done : ∀ e, first ≤ e → ∀ v deps ch, (R.entries e).state = .done v deps ch →
    Good (R.entries e).key.query v deps ch

namespace Registry.Carries

variable {first : EntryId} {Good : DynKey → V → List Dep → Revision → Prop} {R : Registry V}
  {w w' : World V} {view : ViewId} {a : Activation V}

/-- Another state of an entry. -/
theorem setState (h : R.Carries first Good) (e : EntryId) {st : InFlightState V}
    (hst : ∀ v deps ch, st = .done v deps ch → Good (R.entries e).key.query v deps ch) :
    (R.setState e st).Carries first Good where
  next := h.next
  filed k e' hf := (h.filed k e' hf).mono (.setState R e st)
  done e' he v deps ch := by
    by_cases heq : e' = e
    · subst heq
      simpa [Registry.setState] using hst v deps ch
    · simpa [Registry.setState, heq] using h.done e' he v deps ch

theorem notify (h : R.Carries first Good) (e : EntryId) : (R.notify e).Carries first Good where
  next := h.next
  filed k e' hf := (h.filed k e' hf).mono (.notify R e)
  done e' he v deps ch := by
    by_cases heq : e' = e
    · subst heq
      simpa [Registry.notify] using h.done e' he v deps ch
    · simpa [Registry.notify, heq] using h.done e' he v deps ch

theorem remove (h : R.Carries first Good) (k : InFlightKey) :
    (R.remove k).Carries first Good where
  next := h.next
  filed k' e hf := by
    have hf' : Function.update R.filed k none k' = some e := hf
    rw [Function.update_apply] at hf'
    split at hf'
    · cases hf'
    · exact h.filed k' e hf'
  done := h.done

theorem cancel (h : R.Carries first Good) (g : InFlightGuard) :
    (R.cancel g).Carries first Good :=
  ((h.setState g.entry fun _ _ _ hst => by cases hst).notify g.entry).remove g.key

/-- A new entry. -/
theorem lead (h : R.Carries first Good) (k : InFlightKey) (leader : ViewId) :
    (R.lead k leader).Carries first Good where
  next := Nat.le_succ_of_le h.next
  filed k' e hf := by
    have hf' : Function.update R.filed k (some R.nextEntry) k' = some e := hf
    rw [Function.update_apply] at hf'
    split at hf'
    · next heq =>
      obtain rfl := Option.some.inj hf'
      subst heq
      exact ⟨h.next, Nat.lt_succ_self _, by simp [Registry.lead]⟩
    · exact (h.filed k' e hf').mono (.lead R k leader)
  done e he v deps ch := by
    by_cases heq : e = R.nextEntry
    · subst heq
      simp [Registry.lead]
    · simpa [Registry.lead, heq] using h.done e he v deps ch

/-- **What a step does to the registry**, if what it stores in the entry it leads is good. -/
theorem actStep [DecidableEq V] {S : Schema V} {task : TaskId} {below : List (Activation V)}
    {m : Move V} (h : w.registry.Carries first Good)
    (hset : ∀ v deps ch ops g, a.pc = .finishing (.setEntry (.done v deps ch) :: ops) →
      a.guard = some g → Good (w.registry.entries g.entry).key.query v deps ch)
    (hstep : ActStep S w view task below a w' m) :
    w'.registry.Carries first Good ∧ w.registry.Extends w'.registry := by
  cases hstep with
  | lead hpc hf => exact ⟨h.lead .., .lead ..⟩
  | @setEntry st ops g hpc hg =>
    refine ⟨h.setState g.entry fun v deps ch hst => ?_, .setState ..⟩
    subst hst
    exact hset v deps ch ops g hpc hg
  | notifyEntry hpc hg => exact ⟨h.notify _, .notify ..⟩
  | unregister hpc hg => exact ⟨h.remove _, .remove ..⟩
  | touchInput _ _ ht | touchInterned _ _ _ ht =>
    rw [ht.same.registry]
    exact ⟨h, .refl _⟩
  | sharedMiss _ hlook _ => rcases hlook with rfl | rfl <;> exact ⟨h, .refl _⟩
  | _ => exact ⟨h, .refl _⟩

/-- A task that is dropped cancels the entries it leads. -/
theorem cancelled (stack : List (Activation V)) (h : w.registry.Carries first Good) :
    (cancelGuards w stack).registry.Carries first Good ∧
      w.registry.Extends (cancelGuards w stack).registry ∧
        (cancelGuards w stack).shared = w.shared := by
  induction stack generalizing w with
  | nil => exact ⟨h, .refl _, rfl⟩
  | cons a stack ih =>
    unfold cancelGuards
    cases a.guard with
    | none => exact ih h
    | some g =>
      obtain ⟨hcarries, hext, hshared⟩ := ih (w := w.modifyRegistry (·.cancel g)) (h.cancel g)
      exact ⟨hcarries, (Registry.Extends.cancel ..).trans hext, hshared⟩

end Registry.Carries

/-- The database of a family is no snapshot, and its scope is that of the family. -/
structure World.Rooted (w : World V) : Prop where
  nonempty : 0 < w.viewCount
  live : (w.origin 0).2 = false
  scope : w.scope 0 = (w.origin 0).1

namespace World.Rooted

variable {w w' : World V}

theorem fixed (h : w.Rooted) (hfix : w.Fixed w') : w'.Rooted := by
  refine ⟨?_, ?_, ?_⟩
  · rw [hfix.viewCount]
    exact h.nonempty
  · rw [hfix.origin]
    exact h.live
  · rw [hfix.scope, hfix.origin]
    exact h.scope

theorem bump (h : w.Rooted) (i : ViewId) : (w.modifyRuntime i (·.bumpRevision)).Rooted := by
  refine ⟨h.nonempty, ?_, ?_⟩
  · rw [World.origin_bumpRevision]
    exact h.live
  · rw [World.origin_bumpRevision, ← h.scope, World.scope_modifyRuntime]
    split
    · next heq => subst heq; rfl
    · rfl

/-- The database never diverges. -/
theorem diverge (h : w.Rooted) (i : ViewId) : (w.markDivergent i).Rooted := by
  refine ⟨h.nonempty, ?_, ?_⟩
  · rw [World.origin_markDivergent]
    exact h.live
  · rw [World.origin_markDivergent, ← h.scope]
    by_cases hi : i = 0
    · subst hi
      exact World.scope_markDivergent_of_live _ _ _ h.live
    · simp [World.markDivergent, World.modifyRuntime, World.modifyView, World.scope,
        Function.update_of_ne (Ne.symm hi)]

theorem store (h : w.Rooted) (i : ViewId) (k : DynKey) (v : Option V) (r : Revision) :
    (w.storeInput i k v r).Rooted := by
  refine ⟨h.nonempty, ?_, ?_⟩
  · rw [World.origin_storeInput]
    exact h.live
  · rw [World.origin_storeInput, World.scope_storeInput]
    exact h.scope

theorem snapshot (h : w.Rooted) : w.snapshot.Rooted := by
  have hne : 0 ≠ w.viewCount := Nat.ne_of_lt h.nonempty
  refine ⟨Nat.succ_pos _, ?_, ?_⟩
  · rw [World.origin_snapshot, if_neg hne]
    exact h.live
  · rw [World.origin_snapshot, World.scope_snapshot, if_neg hne, if_neg hne]
    exact h.scope

end World.Rooted

/-- **In every run the database is the root of its family.** -/
theorem rooted_step [DecidableEq V] {S : Schema V} {c c' : Config V} {l : Label V}
    (h : c.world.Rooted) (hs : step S c l = some c') : c'.world.Rooted := by
  cases l with
  | step t => exact h.fixed (taskStep_of_step hs).fixed
  | spawn view key want =>
    simp only [Config.step] at hs
    split at hs <;> cases hs
    exact h
  | drop t =>
    have hs' : dropTask c t = some c' := hs
    unfold dropTask at hs'
    split at hs'
    · cases hs'
    · split at hs' <;> cases hs'
      exact h.fixed (fixed_cancelGuards ..)
  | mutate view key value =>
    simp only [Config.step] at hs
    split at hs <;> cases hs
    show (mutateWorld c.world view key value).Rooted
    unfold mutateWorld
    split
    · exact h
    · exact ((h.bump view).diverge view).store ..
  | «begin» view key value =>
    simp only [Config.step] at hs
    split at hs <;> cases hs
    exact h
  | advance n =>
    simp only [Config.step] at hs
    split at hs
    · cases hs
    · split at hs
      · cases hs
      · next hm =>
        cases hs
        unfold stepMutator at hm
        split at hm
        · split at hm <;> cases hm <;> exact h
        · cases hm
          exact h.bump _
        · cases hm
          exact h.diverge _
        · cases hm
          exact h.store ..
        · cases hm
  | intern kind value =>
    cases hs
    exact ⟨h.nonempty, h.live, h.scope⟩
  | bump view =>
    simp only [Config.step] at hs
    split at hs <;> cases hs
    exact h.bump view
  | snapshot =>
    cases hs
    exact h.snapshot

theorem rooted_run [DecidableEq V] {S : Schema V} {ok : Config V → Label V → Config V → Prop}
    {ls : List (Label V)} {c : Config V} (hrun : Trans.Steps (step S) ok init ls c) :
    c.world.Rooted :=
  hrun.invariant ⟨Nat.one_pos, rfl, rfl⟩ fun _ _ _ h hl _ => rooted_step h hl

namespace Phase

variable (P : Phase V)

/-- The previous value of an access to `q` is what the cells of `q` held, if that is a value. -/
def Knows (q : DynKey) (prev : Previous V) : Prop := ∀ D, P.base q = some D → prev = some D

/-- The entry was made in the phase, for `q`. -/
def Made (R : Registry V) (e : EntryId) (q : DynKey) : Prop :=
  P.firstEntry ≤ e ∧ e < R.nextEntry ∧ (R.entries e).key.query = q

/-- What is on file in a cell of `q` that is not verified at the revision of the phase was
there before. -/
def StateOk (q : DynKey) : ErasedState V → Prop
  | .ready r => r.verifiedAt ≠ P.rev → P.base q = some r.data
  | .poisoned _ ver => ver ≠ P.rev → P.base q = none
  | _ => True

/-- What is stored for `q` is consistent with what its cells held. -/
def OpOk (q : DynKey) : MicroOp V → Prop
  | .setCell (.ready r) => r.verifiedAt = P.rev ∧ Consistent (P.base q) r.data
  | .setCell (.poisoned _ ver) => ver = P.rev
  | .putShared F => Consistent (P.base q) F.data
  | .setEntry (.done v _ ch) => Consistent (P.base q) (v, ch)
  | _ => True

/-- A shared record that is revalidated is consistent, and the access knows what its cell held. -/
def SourceOk (q : DynKey) : Source V → Prop
  | .cell .. => True
  | .shared F prev => Consistent (P.base q) F.data ∧ P.Knows q prev

/-- What an access to `q` knows. -/
def PcOk (R : Registry V) (q : DynKey) : Pc V → Prop
  | .revalidate src _ | .touching src _ _ => P.SourceOk q src
  | .sharedGet prev | .lead prev | .computing prev _ _ | .reading prev _ _ _ => P.Knows q prev
  | .followReset e | .followListen e | .followRead e _ | .followParked e _ => P.Made R e q
  | .finishing ops => ∀ op ∈ ops, P.OpOk q op
  | _ => True

/-- An access of the phase has read its revision, and leads an entry for its own key. -/
structure ActOk (R : Registry V) (a : Activation V) : Prop where
  rev : a.pc = .top ∨ a.rev = P.rev
  pc : P.PcOk R a.key a.pc
  guard : ∀ g, a.guard = some g → P.Made R g.entry a.key

/-- Whoever filed an entry did so for its key, and it ends with a consistent result. -/
structure RegistryOk (R : Registry V) : Prop where
  next : P.firstEntry ≤ R.nextEntry
  filed : ∀ k e, R.filed k = some e → P.Made R e k.query
  done : ∀ e, P.firstEntry ≤ e → ∀ v deps ch, (R.entries e).state = .done v deps ch →
    Consistent (P.base (R.entries e).key.query) (v, ch)

/-- The views are at one revision and share one scope, and what is on file is consistent. -/
structure WorldOk (w : World V) : Prop where
  rev : ∀ i, P.views i → i < w.viewCount → w.rev i = P.rev
  scope : ∀ i, P.views i → i < w.viewCount → w.scope i = P.scope
  rooted : w.Rooted
  stem : ∀ i, P.views i → w.viewCount ≤ i → P.views 0
  cells : ∀ i q, P.views i → i < w.viewCount → P.StateOk q (w.state i q)
  shared : ∀ q F, w.shared P.scope q = some F → Consistent (P.base q) F.data
  registry : P.RegistryOk w.registry

end Phase

namespace Phase

variable {P : Phase V} {R R' : Registry V} {q : DynKey} {e : EntryId} {w w' : World V}
  {view : ViewId} {a a' : Activation V}

theorem Made.mono (h : P.Made R e q) (hR : R.Extends R') : P.Made R' e q :=
  Registry.MadeFrom.mono h hR

theorem PcOk.mono {pc : Pc V} (h : P.PcOk R q pc) (hR : R.Extends R') : P.PcOk R' q pc := by
  cases pc with
  | followReset e | followListen e | followRead e seen | followParked e seen => exact Made.mono h hR
  | _ => exact h

theorem ActOk.mono (h : P.ActOk R a) (hR : R.Extends R') : P.ActOk R' a :=
  ⟨h.rev, h.pc.mono hR, fun g hg => (h.guard g hg).mono hR⟩

/-! ## 2. The routes to a result -/

theorem consistent_changedAtOf [DecidableEq V] {prev : Previous V} (h : P.Knows q prev)
    (rev : Revision) (v : V) : Consistent (P.base q) (v, changedAtOf prev rev v) := by
  intro D hD
  rw [h D hD]
  exact (lawful_changedAtOf (some D) rev v).consistent D rfl

theorem ops_adoptOps {F : SharedCacheRecord V} (hF : Consistent (P.base q) F.data) :
    ∀ op ∈ adoptOps view P.rev F, P.OpOk q op := by
  simp [adoptOps, OpOk]
  exact ⟨hF, hF⟩

theorem ops_followOps {leader : ViewId} {v : V} {deps : List Dep} {ch : Revision}
    (h : Consistent (P.base q) (v, ch)) :
    ∀ op ∈ followOps view leader P.rev v deps ch, P.OpOk q op := by
  simp [followOps, OpOk]
  exact ⟨h, h⟩

theorem ops_followFailedOps {err : PicanteError} :
    ∀ op ∈ (followFailedOps P.rev err : List (MicroOp V)), P.OpOk q op := by
  simp [followFailedOps, OpOk]

theorem ops_finalizeOps [DecidableEq V] {prev : Previous V} {deps : List Dep}
    {out : PicanteResult V} (h : P.Knows q prev) :
    ∀ op ∈ finalizeOps view P.rev prev deps out, P.OpOk q op := by
  cases out with
  | ok v =>
    have hlaw := consistent_changedAtOf h P.rev v
    simp [finalizeOps, OpOk]
    exact ⟨hlaw, hlaw, hlaw⟩
  | error e => simp [finalizeOps, OpOk]

theorem pcOk_afterRevalidation {src : Source V} (h : P.SourceOk q src) (b : Bool) :
    P.PcOk R q (afterRevalidation view P.rev src b) := by
  cases src with
  | cell deps ch f => cases b <;> trivial
  | shared F prev =>
    cases b with
    | true => exact ops_adoptOps h.1
    | false => exact h.2

theorem Touched.pcOk {src : Source V} {rest : List Dep} {r : PicanteResult Revision}
    (ht : Touched w view a src rest r w' a') (h : P.SourceOk a.key src) (hrev : a.rev = P.rev) :
    P.PcOk R a'.key a'.pc := by
  cases ht with
  | unchanged _ => exact h
  | changed _ => exact hrev ▸ pcOk_afterRevalidation h false
  | failed => simp [Activation.moveTo, PcOk, OpOk]

/-! ## 3. The registry -/

theorem registryOk_iff : P.RegistryOk R ↔
    R.Carries P.firstEntry fun q v _ ch => Consistent (P.base q) (v, ch) :=
  ⟨fun h => ⟨h.next, h.filed, h.done⟩, fun h => ⟨h.next, h.filed, h.done⟩⟩

section step

variable [DecidableEq V] {S : Schema V} {task : TaskId} {below : List (Activation V)}

/-- **What a step does to the registry.** -/
theorem RegistryOk.actStep {m : Move V} (h : P.RegistryOk w.registry)
    (ha : P.ActOk w.registry a) (hstep : ActStep S w view task below a w' m) :
    P.RegistryOk w'.registry ∧ w.registry.Extends w'.registry := by
  rw [registryOk_iff] at h ⊢
  refine h.actStep (fun v deps ch ops g hpc hg => ?_) hstep
  have hops := ha.pc
  rw [hpc] at hops
  have hop : P.OpOk a.key (.setEntry (.done v deps ch)) := hops _ (List.mem_cons_self ..)
  obtain ⟨-, -, hquery⟩ := ha.guard g hg
  rw [hquery]
  exact hop

/-! ## 4. A step of an access -/

omit [DecidableEq V] in
/-- The world after a step of a task. -/
theorem WorldOk.update (hw : P.WorldOk w) (hfix : w.Fixed w')
    (hcells : ∀ i q, P.views i → i < w.viewCount → P.StateOk q (w'.state i q))
    (hshared : ∀ q F, w'.shared P.scope q = some F → Consistent (P.base q) F.data)
    (hregistry : P.RegistryOk w'.registry) : P.WorldOk w' where
  rev i hi hin := (hfix.rev i).trans (hw.rev i hi (hfix.viewCount ▸ hin))
  scope i hi hin := (hfix.scope i).trans (hw.scope i hi (hfix.viewCount ▸ hin))
  rooted := hw.rooted.fixed hfix
  stem i hi hin := hw.stem i hi (hfix.viewCount ▸ hin)
  cells i q hi hin := hcells i q hi (hfix.viewCount ▸ hin)
  shared := hshared
  registry := hregistry

omit [DecidableEq V] in
theorem WorldOk.same (hw : P.WorldOk w) (h : w.Same w') : P.WorldOk w' :=
  hw.update (.of_same h) (fun i q hi hin => h.state i q ▸ hw.cells i q hi hin)
    (h.shared ▸ hw.shared) (h.registry ▸ hw.registry)

/-- **What is on file after a step.** -/
theorem WorldOk.goto (hw : P.WorldOk w) (ha : P.ActOk w.registry a)
    (hstep : ActStep S w view task below a w' (.goto a')) : P.WorldOk w' := by
  have hrev : a.pc ≠ .top → a.rev = P.rev := ha.rev.resolve_left
  have hpcOk := ha.pc
  refine hw.update hstep.fixed ?_ ?_ (hw.registry.actStep ha hstep).1
  · intro i q hi hin
    by_cases hk : i = view ∧ q = a.key
    · obtain ⟨rfl, rfl⟩ := hk
      rcases hstep.cellStep with h | h | ⟨started, o, h⟩ | ⟨r, hpc, -, h⟩ | ⟨st, ops, hpc, h⟩
      · rw [h]
        exact hw.cells i a.key hi hin
      · rw [h]
        trivial
      · rw [h]
        trivial
      · rw [h]
        intro hne
        exact absurd (hrev (by rw [hpc]; nofun)) hne
      · rw [h]
        rw [hpc] at hpcOk
        have hop := hpcOk _ (List.mem_cons_self ..)
        cases st with
        | ready r => exact fun hne => absurd hop.1 hne
        | poisoned e ver => exact fun hne => absurd hop hne
        | vacant => trivial
        | running started o => trivial
    · have hstate : w'.state i q = w.state i q := congrArg ErasedCell.state (hstep.cell_other hk)
      rw [hstate]
      exact hw.cells i q hi hin
  · intro q F hF
    cases hstep with
    | touchInput _ _ ht | touchInterned _ _ _ ht =>
      rw [ht.same.shared] at hF
      exact hw.shared q F hF
    | sharedMiss _ hlook _ =>
      rcases hlook with rfl | rfl
      · exact hw.shared q F hF
      · have hF' := (World.shared_evictShared ..).symm.trans hF
        split at hF'
        · cases hF'
        · exact hw.shared q F hF'
    | putShared hpc =>
      rw [hpc] at hpcOk
      rw [World.shared_putShared] at hF
      split at hF
      · next heq =>
        obtain rfl := Option.some.inj hF
        rw [heq.2]
        exact hpcOk _ (List.mem_cons_self ..)
      · exact hw.shared q F hF
    | _ => exact hw.shared q F hF

/-- **What an access knows after a step.** -/
theorem ActOk.goto (hw : P.WorldOk w) (hview : P.views view) (hin : view < w.viewCount)
    (ha : P.ActOk w.registry a) (hstep : ActStep S w view task below a w' (.goto a'))
    (hstart : a.pc = .attempt → w.state view a.key = .vacant → P.base a.key = none) :
    P.ActOk w'.registry a' := by
  have hext := (hw.registry.actStep ha hstep).2
  have hpcOk := ha.pc
  have hrev : a.pc ≠ .top → a.rev = P.rev := ha.rev.resolve_left
  have hscope := hw.scope view hview hin
  refine ⟨?_, ?_, ?_⟩
  · cases hstep with
    | top hpc => exact .inr (hw.rev view hview hin)
    | overtaken _ | wake _ _ | followCancelled _ | restart _ _ => exact .inl rfl
    | lead hpc _ => exact .inr (hrev (by rw [hpc]; rintro ⟨⟩))
    | touchInput hpc _ ht | touchInterned hpc _ _ ht =>
      exact .inr ((Touched.rev ht).trans (hrev (by rw [hpc]; rintro ⟨⟩)))
    | _ => exact .inr (hrev (by simp_all))
  · cases hstep with
    | stale _ _ _ | top _ | listen _ | retry _ _ | park _ _ | wake _ _ | overtaken _
    | followCancelled _ | restart _ _ => trivial
    | hit _ _ _ | poison _ _ | touchMissing _ _ _ | touchCycle _ _ _ | reverify _ _ =>
      simp [Activation.moveTo, PcOk, OpOk]
    | accept hpc =>
      have hrev := hrev (by rw [hpc]; rintro ⟨⟩)
      rw [hpc] at hpcOk
      exact hrev ▸ pcOk_afterRevalidation hpcOk true
    | unregistered hpc _ =>
      have hrev := hrev (by rw [hpc]; rintro ⟨⟩)
      rw [hpc] at hpcOk
      exact hrev ▸ pcOk_afterRevalidation hpcOk false
    | touchInput hpc _ ht | touchInterned hpc _ _ ht =>
      have hrev := hrev (by rw [hpc]; rintro ⟨⟩)
      rw [hpc] at hpcOk
      exact Touched.pcOk ht hpcOk hrev
    | @start prev hpc hs =>
      -- the cell holds what it held before, or nothing that anybody remembers
      have hrev := hrev (by rw [hpc]; rintro ⟨⟩)
      have hcell := hw.cells view a.key hview hin
      intro D hD
      rcases hs with ⟨r, hr, hver, rfl⟩ | ⟨hnone, rfl⟩
      · rw [hr] at hcell
        exact (hcell (hrev ▸ hver)).symm.trans hD
      · have hbase : P.base a.key = none := by
          rcases hnone with hv | ⟨e, ver, hp, hver⟩
          · exact hstart hpc hv
          · rw [hp] at hcell
            exact hcell (hrev ▸ hver)
        exact hbase.symm.trans hD
    | sharedMiss hpc _ _ | readInput hpc _ | readInterned hpc _ _ | readMissing hpc _ _
    | readCycle hpc _ _ | lead hpc _ =>
      rw [hpc] at hpcOk
      exact hpcOk
    | sharedHit hpc hs _ =>
      have hrev := hrev (by rw [hpc]; rintro ⟨⟩)
      rw [hscope] at hs
      exact hrev ▸ ops_adoptOps (hw.shared _ _ hs)
    | sharedStale hpc hs _ =>
      rw [hpc] at hpcOk
      rw [hscope] at hs
      exact ⟨hw.shared _ _ hs, hpcOk⟩
    | follow hpc hf => exact hw.registry.filed _ _ hf
    | followReset hpc | followListen hpc | followPark hpc | followWake hpc =>
      rw [hpc] at hpcOk
      exact hpcOk
    | followDone hpc hs =>
      have hrev := hrev (by rw [hpc]; rintro ⟨⟩)
      rw [hpc] at hpcOk
      obtain ⟨hfirst, -, hquery⟩ := hpcOk
      have hdone := hw.registry.done _ hfirst _ _ _ hs
      rw [hquery] at hdone
      exact hrev ▸ ops_followOps hdone
    | followFailed hpc _ =>
      have hrev := hrev (by rw [hpc]; rintro ⟨⟩)
      exact hrev ▸ ops_followFailedOps
    | finalize hpc =>
      have hrev := hrev (by rw [hpc]; rintro ⟨⟩)
      rw [hpc] at hpcOk
      exact hrev ▸ ops_finalizeOps hpcOk
    | updateDeps hpc | setCell hpc | notifyCell hpc | putShared hpc | setEntry hpc _
    | notifyEntry hpc _ | unregister hpc _ | unguarded hpc _ _ =>
      rw [hpc] at hpcOk
      exact fun op hop => hpcOk op (List.mem_cons_of_mem _ hop)
  · intro g hg
    cases hstep with
    | lead hpc _ =>
      cases hg
      exact ⟨hw.registry.next, Nat.lt_succ_self _, by simp [World.modifyRegistry, Registry.lead]⟩
    | unregister _ _ => cases hg
    | touchInput _ _ ht | touchInterned _ _ _ ht =>
      rw [ht.key]
      exact (ha.guard g (ht.guard.1 ▸ hg)).mono hext
    | _ => exact (ha.guard g hg).mono hext

theorem ActOk.call {child : DynKey} (ha : P.ActOk w.registry a)
    (hstep : ActStep S w view task below a w' (.call a' child)) : P.ActOk w.registry a' := by
  have hpcOk := ha.pc
  cases hstep with
  | touchCall hpc _ _ | readCall hpc _ _ =>
    rw [hpc] at hpcOk
    exact ⟨.inr (ha.rev.resolve_left (by rw [hpc]; nofun)), hpcOk, ha.guard⟩

omit [DecidableEq V] in
theorem actOk_enter (R : Registry V) (key : DynKey) : P.ActOk R (.enter key) :=
  ⟨.inl rfl, trivial, nofun⟩

omit [DecidableEq V] in
/-- **What an access knows when a nested one has returned.** -/
theorem ActOk.resumed {p p' : Activation V} {r : AccessResult V} (ha : P.ActOk w.registry p)
    (hp : Resumed w view p r w' p') : P.ActOk w'.registry p' := by
  rw [hp.same.registry]
  have hpcOk := ha.pc
  cases hp with
  | touched hpc ht =>
    have hrev := ha.rev.resolve_left (by rw [hpc]; nofun)
    rw [hpc] at hpcOk
    refine ⟨.inr ((Touched.rev ht).trans hrev), Touched.pcOk ht hpcOk hrev, ?_⟩
    rw [ht.guard.1, ht.key]
    exact ha.guard
  | answered hpc =>
    rw [hpc] at hpcOk
    exact ⟨.inr (ha.rev.resolve_left (by rw [hpc]; nofun)), hpcOk, ha.guard⟩
  | idle _ => exact ha

end step

/-! ## 5. A step of the phase -/

variable (P) in
/-- The accesses are to the views of the phase, and know what they should. -/
structure ConfigOk (c : Config V) : Prop where
  world : P.WorldOk c.world
  views : ∀ t, c.Pending t → P.views (c.tasks t).view
  acts : ∀ t, ∀ a ∈ (c.tasks t).stack, P.ActOk c.world.registry a

variable (P) in
/-- An access is to a view of the phase. -/
def Within : Label V → Prop
  | .spawn view _ _ => P.views view
  | _ => True

variable (P) in
/-- No access starts at a vacant cell of a key whose cells held a value before. -/
def StartsNew (c : Config V) (l : Label V) : Prop :=
  ∀ t a below, l = .step t → (c.tasks t).stack = a :: below → a.pc = .attempt →
    c.world.state (c.tasks t).view a.key = .vacant → P.base a.key = none

section runs

variable [DecidableEq V] {S : Schema V} {c c' : Config V} {t : TaskId}

/-- **A step of a task of the phase.** -/
theorem ConfigOk.taskStep (h : P.ConfigOk c) (hworkers : Workers c) (hstep : TaskStep S c t c')
    (hnew : P.StartsNew c (.step t)) : P.ConfigOk c' := by
  have hpend := hstep.same_access.1
  have hview := h.views t hpend
  have hin := hworkers.inView t hpend
  have hviews : ∀ t', c'.Pending t' → P.views (c'.tasks t').view := by
    intro t' ht'
    by_cases ht : t' = t
    · subst ht
      rw [hstep.same_access.2.1]
      exact hview
    · rw [hstep.tasks_ne ht]
      exact h.views t' ((hstep.pending_ne ht).mp ht')
  have hold := h.acts t
  -- the activations of the other tasks, and those below the top, know what they did
  have hacts := fun (R : Registry V) (hext : c.world.registry.Extends R) =>
    hstep.acts (P := P.ActOk R) fun t a ha => (h.acts t a ha).mono hext
  cases hstep with
  | @goto a a' below w hst ha =>
    rw [hst] at hold
    obtain ⟨hatop, hbelow⟩ := List.forall_mem_cons.mp hold
    have ha' := hatop.goto h.world hview hin ha fun hpc hs => hnew t a below rfl hst hpc hs
    have hext := (h.world.registry.actStep hatop ha).2
    refine ⟨h.world.goto hatop ha, hviews, hacts _ hext ?_⟩
    have hstack : ∀ b ∈ a' :: below, P.ActOk w.registry b :=
      List.forall_mem_cons.mpr ⟨ha', fun b hb => (hbelow b hb).mono hext⟩
    simpa [setTask] using hstack
  | @call a a' below w child hst ha =>
    rw [hst] at hold
    obtain ⟨hatop, hbelow⟩ := List.forall_mem_cons.mp hold
    obtain ⟨rfl, -⟩ := ha.call_pcOk .vacant
    refine ⟨h.world, hviews, hacts _ (.refl _) ?_⟩
    have hstack : ∀ b ∈ .enter child :: a' :: below, P.ActOk c.world.registry b :=
      List.forall_mem_cons.mpr ⟨actOk_enter .., List.forall_mem_cons.mpr ⟨hatop.call ha, hbelow⟩⟩
    simpa [setTask] using hstack
  | ret hst ha =>
    obtain rfl := ha.ret_world
    exact ⟨h.world, hviews, hacts _ (.refl _) (by simp [setTask])⟩
  | @resume a p p' below w w' r hst ha hp =>
    rw [hst] at hold
    obtain ⟨-, hp₀, hbelow⟩ := by simpa using hold
    obtain rfl := ha.ret_world
    have hreg := hp.same.registry
    refine ⟨h.world.same hp.same, hviews, hacts _ (hreg ▸ .refl _) ?_⟩
    have hstack : ∀ b ∈ p' :: below, P.ActOk w'.registry b :=
      List.forall_mem_cons.mpr ⟨hp₀.resumed hp, fun b hb => hreg ▸ hbelow b hb⟩
    simpa [setTask] using hstack

omit [DecidableEq V] in
theorem StateOk.snapshot {cell : ErasedCell V} (h : P.StateOk q cell.state) :
    P.StateOk q cell.snapshot.state := by
  cases hs : cell.snapshot.state with
  | ready r =>
    rw [ErasedCell.ready_of_snapshot hs] at h
    exact h
  | poisoned e ver => exact absurd hs ErasedCell.not_poisoned_of_snapshot
  | vacant => trivial
  | running started o => trivial

omit [DecidableEq V] in
/-- A new snapshot is a view of the phase, if the database is. -/
theorem WorldOk.snapshot (h : P.WorldOk w) : P.WorldOk w.snapshot where
  rev i hi hin := by
    rw [World.rev_snapshot]
    split
    · next heq => exact h.rev 0 (h.stem i hi (Nat.le_of_eq heq.symm)) h.rooted.nonempty
    · next hne => exact h.rev i hi (Nat.lt_of_le_of_ne (Nat.le_of_lt_succ hin) hne)
  scope i hi hin := by
    rw [World.scope_snapshot, ← h.rooted.scope]
    split
    · next heq => exact h.scope 0 (h.stem i hi (Nat.le_of_eq heq.symm)) h.rooted.nonempty
    · next hne => exact h.scope i hi (Nat.lt_of_le_of_ne (Nat.le_of_lt_succ hin) hne)
  rooted := h.rooted.snapshot
  stem i hi hin := h.stem i hi (Nat.le_of_succ_le hin)
  cells i q hi hin := by
    rw [World.state_snapshot]
    split
    · next heq =>
      exact (h.cells 0 q (h.stem i hi (Nat.le_of_eq heq.symm)) h.rooted.nonempty).snapshot
    · next hne => exact h.cells i q hi (Nat.lt_of_le_of_ne (Nat.le_of_lt_succ hin) hne)
  shared := h.shared
  registry := h.registry

variable (P) in
/-- A step of the phase, in which no access starts at a vacant cell of a key whose cells held a
value before, nor at one that another access works for. -/
def Undisturbed (c : Config V) (l : Label V) (_ : Config V) : Prop :=
  l.isAccess ∧ P.Within l ∧ StartsAlone c l ∧ P.StartsNew c l

/-- **A step of the phase keeps what the accesses know.** -/
theorem ConfigOk.step {l : Label V} (h : P.ConfigOk c) (hworkers : Workers c)
    (hs : Config.step S c l = some c') (hl : P.Undisturbed c l c') : P.ConfigOk c' := by
  obtain ⟨hacc, hwithin, -, hnew⟩ := hl
  cases l with
  | step t => exact h.taskStep hworkers (taskStep_of_step hs) hnew
  | spawn view key want =>
    simp only [Config.step] at hs
    split at hs <;> cases hs
    refine ⟨h.world, fun t ht => ?_, fun t a ha => ?_⟩
    · by_cases htask : t = c.taskCount
      · subst htask
        have hview : P.views view := hwithin
        simpa using hview
      · simp only [Function.update_of_ne htask]
        exact h.views t (by simpa [Pending, Function.update_of_ne htask] using ht)
    · by_cases htask : t = c.taskCount
      · subst htask
        have ha' : a = .enter key := by simpa using ha
        subst ha'
        exact actOk_enter c.world.registry key
      · simp only [Function.update_of_ne htask] at ha
        exact h.acts t a ha
  | drop t =>
    have hs' : dropTask c t = some c' := hs
    unfold dropTask at hs'
    split at hs'
    · cases hs'
    · next a below hst =>
      split at hs' <;> cases hs'
      obtain ⟨hreg, hext, hshared⟩ := (registryOk_iff.mp h.world.registry).cancelled (a :: below)
      refine ⟨h.world.update (fixed_cancelGuards ..) (fun i q hi hin => ?_)
        (hshared ▸ h.world.shared)
        (registryOk_iff.mpr hreg), fun t' ht' => ?_, fun t' b hb => ?_⟩
      · have hcell : (cancelGuards c.world (a :: below)).state i q = c.world.state i q :=
          congrArg ErasedCell.state (cell_cancelGuards ..)
        exact hcell ▸ h.world.cells i q hi hin
      · have ht : t' ≠ t := by
          rintro rfl
          simp [Pending, setTask] at ht'
        have hp := h.views t' ((pending_setTask_ne ht _).mp ht')
        simpa [setTask, Function.update_of_ne ht] using hp
      · by_cases ht : t' = t
        · subst ht
          simp [setTask] at hb
        · have hb' : b ∈ (c.tasks t').stack := by simpa [setTask, Function.update_of_ne ht] using hb
          exact (h.acts t' b hb').mono hext
  | snapshot =>
    cases hs
    exact ⟨h.world.snapshot, h.views, h.acts⟩
  | mutate view key value | «begin» view key value | advance m | intern kind value | bump view =>
    cases hacc

/-- **What a step stores in a cell is consistent** with what the cells held before, if what it
finds there is. -/
theorem ConfigOk.consistent {l : Label V} (h : P.ConfigOk c) (hs : Config.step S c l = some c')
    (hl : l.isAccess) {i : ViewId} (hi : i < c.world.viewCount)
    (hcell : ∀ r, c.world.state i q = .ready r → Consistent (P.base q) r.data) :
    ∀ r, c'.world.state i q = .ready r → Consistent (P.base q) r.data := by
  intro r hr
  cases l with
  | step t =>
    have hstep := taskStep_of_step hs
    cases hstep with
    | @goto a a' below w hst ha =>
      have hr' : w.state i q = .ready r := hr
      by_cases hk : i = (c.tasks t).view ∧ q = a.key
      · obtain ⟨rfl, rfl⟩ := hk
        rcases ha.cellStep with heq | heq | ⟨started, o, heq⟩ | ⟨r₀, -, hs₀, heq⟩ |
          ⟨st, ops, hpc, heq⟩
        · exact hcell r (heq.symm.trans hr')
        · cases heq.symm.trans hr'
        · cases heq.symm.trans hr'
        · cases heq.symm.trans hr'
          exact hcell r₀ hs₀
        · obtain rfl := heq.symm.trans hr'
          have hpcOk := (h.acts t a (by simp [hst])).pc
          rw [hpc] at hpcOk
          exact (hpcOk _ (List.mem_cons_self ..)).2
      · have hstate : w.state i q = c.world.state i q :=
          congrArg ErasedCell.state (ha.cell_other hk)
        exact hcell r (hstate.symm.trans hr')
    | call hst ha =>
      obtain ⟨rfl, -⟩ := ha.call_pcOk .vacant
      exact hcell r hr
    | ret hst ha =>
      obtain rfl := ha.ret_world
      exact hcell r hr
    | resume hst ha hp =>
      obtain rfl := ha.ret_world
      exact hcell r ((hp.same.state i q).symm.trans hr)
  | spawn view key want =>
    simp only [Config.step] at hs
    split at hs <;> cases hs
    exact hcell r hr
  | drop t =>
    have hs' : dropTask c t = some c' := hs
    unfold dropTask at hs'
    split at hs'
    · cases hs'
    · split at hs' <;> cases hs'
      exact hcell r ((congrArg ErasedCell.state (cell_cancelGuards ..)).symm.trans hr)
  | snapshot =>
    cases hs
    have heq := World.state_snapshot (w := c.world) (j := i) (k := q)
    rw [if_neg (Nat.ne_of_lt hi)] at heq
    exact hcell r (heq.symm.trans hr)
  | mutate view key value | «begin» view key value | advance m | intern kind value | bump view =>
    cases hl

end runs

end Phase

/-! ## 6. Whole phases -/

/-- The view, or the database if the view is a snapshot to come, is at this revision, and in this
scope. -/
def World.Joins (w : World V) (rev : Revision) (scope : RuntimeId) (i : ViewId) : Prop :=
  w.rev (if i < w.viewCount then i else 0) = rev ∧ w.scope (if i < w.viewCount then i else 0) =
    scope

/-- The views at revision `rev` in one scope agree on what their cells hold from before, and so
do the shared records. -/
structure World.Agrees (w : World V) (rev : Revision) (scope : RuntimeId)
    (base : DynKey → Previous V) : Prop where
  ready : ∀ i q r, i < w.viewCount → w.Joins rev scope i → w.state i q = .ready r →
    r.verifiedAt ≠ rev → base q = some r.data
  poisoned : ∀ i q e ver, i < w.viewCount → w.Joins rev scope i → w.state i q = .poisoned e ver →
    ver ≠ rev → base q = none
  shared : ∀ q F, w.shared scope q = some F → Consistent (base q) F.data

/-- The phase that starts in a configuration, on the views at revision `rev` in one scope. -/
def Config.phase (c : Config V) (rev : Revision) (scope : RuntimeId)
    (base : DynKey → Previous V) : Phase V where
  rev := rev
  scope := scope
  firstEntry := c.world.registry.nextEntry
  views := c.world.Joins rev scope
  base := base

section phases

variable [DecidableEq V] {S : Schema V} {c m m' : Config V} {rev : Revision} {scope : RuntimeId}
  {base : DynKey → Previous V} {ls ls' : List (Label V)}

omit [DecidableEq V] in
theorem configOk_phase (hidle : c.Idle) (hroot : c.world.Rooted) (hled : Led c)
    (hagree : c.world.Agrees rev scope base) : (c.phase rev scope base).ConfigOk c where
  world := {
    rev := fun i hi hin => by
      have hrev := hi.1
      rwa [if_pos hin] at hrev
    scope := fun i hi hin => by
      have hscope := hi.2
      rwa [if_pos hin] at hscope
    rooted := hroot
    stem := fun i hi hin => by
      obtain ⟨hrev, hscope⟩ := hi
      rw [if_neg (Nat.not_lt.mpr hin)] at hrev hscope
      exact ⟨by simpa using hrev, by simpa using hscope⟩
    cells := fun i q hi hin => by
      cases hs : c.world.state i q with
      | ready r => exact hagree.ready i q r hin hi hs
      | poisoned e ver => exact hagree.poisoned i q e ver hin hi hs
      | vacant => trivial
      | running started o => trivial
    shared := hagree.shared
    registry := {
      next := Nat.le_refl _
      filed := fun k e hf => by
        rw [hled.unfiled hidle] at hf
        cases hf
      done := fun e he v deps ch hst => by
        rw [hled.unmade e he] at hst
        cases hst } }
  views t ht := absurd ht (hidle t)
  acts t a ha := absurd (fun hnil => by rw [hnil] at ha; cases ha) (hidle t)

omit [DecidableEq V] in
theorem SharedCacheRecord.Holds.consistent {F : SharedCacheRecord V} {base : Previous V}
    (h : F.Holds base) : Consistent base F.data := by
  intro D hD _
  rw [h D hD]

/-- **After a sequential run on the database** there is nothing to disagree about, as long as it
has no snapshot. -/
theorem agrees_of_sequential
    (hrun : Trans.Steps (Config.step S) (SequentialIn Label.OnDatabase) init ls c)
    (hidle : c.Idle) (hcount : c.world.viewCount = 1) :
    ∃ base, c.world.Agrees (c.world.rev 0) (c.world.scope 0) base := by
  have hkeeps : ∀ q, ∃ base, c.world.Keeps q base := by
    intro q
    obtain ⟨-, ⟨base, h⟩ | h⟩ := held_run hrun q
    · cases h with
      | kept h => exact ⟨base, h.world⟩
      | stored hst _ _ => exact absurd (pending_of_stack hst) (hidle _)
    · obtain ⟨t, a, below, -, -, -, hst, -⟩ := h
      exact absurd (pending_of_stack hst) (hidle t)
  choose base hbase using hkeeps
  refine ⟨base, fun i q r hin _ hs _ => ?_, fun i q e ver hin _ hs _ => ?_,
    fun q F hF => ((hbase q).shared F hF).consistent⟩
  · rw [hcount, Nat.lt_one_iff] at hin
    subst hin
    exact (hbase q).ready r hs
  · rw [hcount, Nat.lt_one_iff] at hin
    subst hin
    exact (hbase q).poisoned e ver hs

/-- What the steps of a phase keep. -/
theorem phase_invariant {P : Phase V} (h : P.ConfigOk m ∧ Workers m ∧ Led m)
    (hrun : Trans.Steps (step S) P.Undisturbed m ls m') :
    P.ConfigOk m' ∧ Workers m' ∧ Led m' :=
  hrun.invariant (I := fun m => P.ConfigOk m ∧ Workers m ∧ Led m) h
    fun _ _ _ ⟨hok, hworkers, hled⟩ hl hu =>
      ⟨hok.step hworkers hl hu, hworkers.step hled hl hu.1 hu.2.2.1, led_step hled hl⟩

/-- **Equal results keep their `changed_at`**, on every view of a phase and on every route, where
no access starts to compute at a cell that a follower has reset: at a vacant cell of a key that
held a value when the phase began, or at one that another access works for. -/
theorem followers_keep_changed_at {ls₀ : List (Label V)} {i : ViewId} {q : DynKey}
    {r r' : ReadyRecord V} (hrun : Trans.run (step S) init ls₀ = some c) (hidle : c.Idle)
    (hagree : c.world.Agrees rev scope base)
    (hbefore : Trans.Steps (step S) (c.phase rev scope base).Undisturbed c ls m)
    (hafter : Trans.Steps (step S) (c.phase rev scope base).Undisturbed m ls' m')
    (hview : c.world.Joins rev scope i) (hin : i < m.world.viewCount)
    (hr : m.world.state i q = .ready r) (hr' : m'.world.state i q = .ready r')
    (hv : r'.value = r.value) : r'.changedAt = r.changedAt := by
  have hreach := Trans.Steps.of_run hrun
  have hm := phase_invariant ⟨configOk_phase hidle (rooted_run hreach) (led_run led_init hreach)
    hagree, Workers.of_idle hidle, led_run led_init hreach⟩ hbefore
  by_cases hver : r.verifiedAt = rev
  · -- a result that is verified stays as it is
    have hstays := hafter.invariant (I := fun n => ((c.phase rev scope base).ConfigOk n ∧
        Workers n ∧ Led n) ∧ i < n.world.viewCount ∧ n.world.state i q = .ready r)
      ⟨hm, hin, hr⟩ fun n l n' ⟨hn, hin, hr⟩ hl hu => by
        refine ⟨phase_invariant hn (.single hl hu),
          Nat.lt_of_lt_of_le hin (grows_step hl).viewCount,
          hn.2.1.stable hl hu.1 hin hr fun t d a ha _ => ?_⟩
        rw [hver]
        exact (hn.1.acts t a (mem_of_act ha)).rev
    obtain ⟨-, -, hr₂⟩ := hstays
    cases hr₂.symm.trans hr'
    rfl
  · -- any other is what all cells held before, and every result stored since is consistent with it
    have hbase : base q = some r.data := by
      have hcell := hm.1.world.cells i q hview hin
      rw [hr] at hcell
      exact hcell hver
    have hstays := hafter.invariant (I := fun n => ((c.phase rev scope base).ConfigOk n ∧
        Workers n ∧ Led n) ∧ i < n.world.viewCount ∧
          ∀ r', n.world.state i q = .ready r' → Consistent (base q) r'.data)
      ⟨hm, hin, fun r' hr' D hD heq => by
        cases hr.symm.trans hr'
        cases hbase.symm.trans hD
        rfl⟩ fun n l n' ⟨hn, hin, hcell⟩ hl hu =>
          ⟨phase_invariant hn (.single hl hu), Nat.lt_of_lt_of_le hin (grows_step hl).viewCount,
            hn.1.consistent hl hu.1 hin hcell⟩
    obtain ⟨-, -, hcell⟩ := hstays
    exact hcell r' hr' r.data hbase hv

end phases

/-! ## 7. An example -/

namespace Cutoff

open Cancellation (x)

/-- `parity` is computed for 1, and `x` becomes 3. -/
def odd : List (Label Nat) :=
  [.mutate 0 x (some 1), .spawn 0 parity true] ++ List.replicate 16 (.step 0) ++
    [.mutate 0 x (some 3)]

/-- An access on view 1 leads, and one on view 2 follows it. -/
def following : List (Label Nat) :=
  [.spawn 1 parity true, .spawn 2 parity true] ++ List.replicate 8 (.step 1) ++
    List.replicate 11 (.step 2)

/-- `parity` has been 1 since revision 1. -/
def held : ReadyRecord Nat := ⟨1, 1, 1, [x], false⟩

/-- No access starts at a vacant cell. -/
def unforgetting (c : Config Nat) : Label Nat → Bool
  | .step t =>
    match (c.tasks t).stack with
    | ⟨key, _, _, .attempt⟩ :: _ => c.world.state (c.tasks t).view key != .vacant
    | _ => true
  | l => l.isAccess

theorem undisturbed_of_unforgetting {P : Phase Nat} (hviews : ∀ i, P.views i) {c c' : Config Nat}
    {l : Label Nat} (h : unforgetting c l) : P.Undisturbed c l c' := by
  have hvacant : ∀ t a below, l = .step t → (c.tasks t).stack = a :: below → a.pc = .attempt →
      c.world.state (c.tasks t).view a.key ≠ .vacant := by
    rintro t ⟨key, rev, guard, pc⟩ below rfl hst rfl
    simpa [unforgetting, hst] using h
  refine ⟨?_, ?_, fun t a below hl hst hpc hs => absurd hs (hvacant t a below hl hst hpc),
    fun t a below hl hst hpc hs => absurd hs (hvacant t a below hl hst hpc)⟩
  · cases l with
    | step t => rfl
    | _ => exact h
  · cases l with
    | spawn view key want => exact hviews view
    | _ => trivial

end Cutoff

open Cutoff in
/-- The follower on view 2 takes over that `parity` has been 1 since revision 1. -/
theorem follower_keeps_one :
    ∃ c m m' r r', Trans.run (step schema) init odd = some c ∧
      Trans.run (step schema) c [.snapshot, .snapshot] = some m ∧
      Trans.run (step schema) m (following ++ List.replicate 10 (.step 1) ++
        List.replicate 4 (.step 2)) = some m' ∧
      m.world.state 2 parity = .ready r ∧ m'.world.state 2 parity = .ready r' ∧
      r'.value = r.value ∧ r'.verifiedAt = 2 ∧ r'.changedAt = r.changedAt := by
  have hrun : (Trans.run (fun c l => if l.inSequence c then step schema c l else none) init
      odd).any (fun c => c.quiet ∧ c.world.viewCount = 1 ∧
        (Trans.run (fun c l => if unforgetting c l then step schema c l else none) c
          [.snapshot, .snapshot]).any fun m => 2 < m.world.viewCount ∧
            m.world.state 2 parity = .ready held ∧
            (Trans.run (fun c l => if unforgetting c l then step schema c l else none) m
              (following ++ List.replicate 10 (.step 1) ++ List.replicate 4 (.step 2))).any
                fun m' => m'.world.state 2 parity =
                  .ready { held with verifiedAt := 2, foreign := true }) := by
    decide +kernel
  obtain ⟨c, hc, hrun⟩ := (Option.any_eq_true ..).mp hrun
  obtain ⟨hquiet, hcount, hrun⟩ := of_decide_eq_true hrun
  obtain ⟨m, hm, hrun⟩ := (Option.any_eq_true ..).mp hrun
  obtain ⟨hin, hr, hrun⟩ := of_decide_eq_true hrun
  obtain ⟨m', hm', hr'⟩ := (Option.any_eq_true ..).mp hrun
  have hr' := of_decide_eq_true hr'
  obtain ⟨hseq, hled⟩ := (Trans.Steps.of_checked_run _ hc).strengthen (led_init (V := Nat))
    fun _ _ _ hn hl hok => ⟨led_step hn hl, sequential_of_inSequence hn hok.2⟩
  obtain ⟨base, hagree⟩ := agrees_of_sequential hseq (hled.idle hquiet) hcount
  -- every view is the database, or a snapshot made in the phase
  have hviews : ∀ i, c.world.Joins (c.world.rev 0) (c.world.scope 0) i := by
    intro i
    unfold World.Joins
    split
    · next hi =>
      rw [hcount, Nat.lt_one_iff] at hi
      subst hi
      exact ⟨rfl, rfl⟩
    · exact ⟨rfl, rfl⟩
  have hbefore : Trans.Steps (step schema) (c.phase _ _ base).Undisturbed c _ m :=
    (Trans.Steps.of_checked_run _ hm).mono fun _ _ _ hok =>
      undisturbed_of_unforgetting hviews hok.2
  have hafter : Trans.Steps (step schema) (c.phase _ _ base).Undisturbed m _ m' :=
    (Trans.Steps.of_checked_run _ hm').mono fun _ _ _ hok =>
      undisturbed_of_unforgetting hviews hok.2
  exact ⟨c, m, m', _, _, hseq.run, hbefore.run, hafter.run, hr, hr', rfl, rfl,
    followers_keep_changed_at hseq.run (hled.idle hquiet) hagree hbefore hafter (hviews 2) hin hr
      hr' rfl⟩

/-- The cell of `q` in view `i` holds `r`, or is not settled. -/
def Config.Unreplaced (c : Config V) (i : ViewId) (q : DynKey) (r : ReadyRecord V) : Prop :=
  c.world.state i q = .ready r ∨ (c.world.state i q).isSettled = false

instance [DecidableEq V] (c : Config V) (i : ViewId) (q : DynKey) (r : ReadyRecord V) :
    Decidable (c.Unreplaced i q r) := inferInstanceAs (Decidable (_ ∨ _))

open Cutoff in
/-- The leader on view 1 is dropped while it computes, and the follower on view 2 starts on the
cell it has reset: it stores 1 as a value that has changed at revision 2. -/
theorem follower_forgets_changed_at :
    ¬ ∀ (ls₀ ls : List (Label Nat)) (l : Label Nat) (c m m' : Config Nat) (i : ViewId)
      (q : DynKey) (r r' : ReadyRecord Nat), Trans.run (step schema) init ls₀ = some c → c.Idle →
      c.world.state i q = .ready r →
      Trans.Steps (step schema) (fun n l _ => l.isAccess ∧ n.Unreplaced i q r) c ls m →
      m.Unreplaced i q r → l.isAccess → step schema m l = some m' →
      m'.world.state i q = .ready r' → r'.value = r.value → r'.changedAt = r.changedAt := by
  intro h
  have hrun : (Trans.run (step schema) init (odd ++ [.snapshot, .snapshot])).any (fun c =>
      c.quiet ∧ c.world.state 2 parity = .ready held ∧
        (Trans.run (fun n l => if l.isAccess && n.Unreplaced 2 parity held then step schema n l
          else none) c (following ++ [.drop 1] ++ List.replicate 13 (.step 2))).any fun m =>
            (m.world.state 2 parity).isSettled = false ∧
              (step schema m (.step 2)).any fun m' =>
                m'.world.state 2 parity =
                  .ready { held with verifiedAt := 2, changedAt := 2, foreign := true }) := by
    decide +kernel
  obtain ⟨c, hc, hrun⟩ := (Option.any_eq_true ..).mp hrun
  obtain ⟨hquiet, hr, hrun⟩ := of_decide_eq_true hrun
  obtain ⟨m, hm, hrun⟩ := (Option.any_eq_true ..).mp hrun
  obtain ⟨hsettled, hrun⟩ := of_decide_eq_true hrun
  obtain ⟨m', hs, hr'⟩ := (Option.any_eq_true ..).mp hrun
  have hidle := (led_run led_init (Trans.Steps.of_run hc)).idle hquiet
  have hsteps : Trans.Steps (step schema) (fun n l _ => l.isAccess ∧ n.Unreplaced 2 parity held)
      c _ m := (Trans.Steps.of_checked_run _ hm).mono fun n l _ hok => by
    obtain ⟨hl, hn⟩ := Bool.and_eq_true_iff.mp hok.2
    exact ⟨hl, of_decide_eq_true hn⟩
  have hkept := h _ _ _ c m m' 2 parity held _ hc hidle hr hsteps (.inr hsettled) rfl hs
    (of_decide_eq_true hr') rfl
  cases hkept

end Picante

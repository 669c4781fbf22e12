/-
# Who works for a cell

An access works for its cell while it is its owner, and while it has reset it and follows a
leader.  In an interleaving on several views the cell of a worker is not settled, so nobody else
finds a result there and nobody starts on it but at a vacant cell; where no access starts there
while a worker is left, a cell has one worker at a time, and is written by it only (`Workers`).

So a result that is verified at the revision of its view stays as it is (`Workers.stable`).
-/
import Picante.Cutoff.OneView

namespace Picante

open Config

variable {V : Type}

/-! ## 1. Workers -/

/-- Owns its cell, or has reset it for the sake of a leader. -/
def Pc.works (pc : Pc V) : Bool := pc.owns || pc.follows

/-- The three ways in which a step of an activation bears on the work for cells: it goes on or
ends without a result, it starts, or it ends with a result. -/
inductive WorkEffect (w w' : World V) (view : ViewId) (key : DynKey) (pc pc' : Pc V) : Prop
  | continues (hworks : pc'.works → pc.works)
      (hw : ∀ i k, (w'.state i k).isSettled → (w.state i k).isSettled)
  | starts (hpc : pc = .attempt) (hold : (w.state view key).isSettled ∨ w.state view key = .vacant)
      (hnew : (w'.state view key).isSettled = false)
      (hw : ∀ i k, ¬ (i = view ∧ k = key) → w'.state i k = w.state i k)
  | ends (hworks : pc.works) (hworks' : pc'.works = false)
      (hw : ∀ i k, ¬ (i = view ∧ k = key) → w'.state i k = w.state i k)

/-- What a step leaves in the cell of its access. -/
inductive CellStep (w w' : World V) (view : ViewId) (a : Activation V) : Prop
  | kept (h : w'.state view a.key = w.state view a.key)
  | vacated (h : w'.state view a.key = .vacant)
  | started (started : Revision) (o : Owner) (h : w'.state view a.key = .running started o)
  | verified (r : ReadyRecord V) (hpc : a.pc = .reverify) (hs : w.state view a.key = .ready r)
      (h : w'.state view a.key = .ready { r with verifiedAt := a.rev })
  | stored (st : ErasedState V) (ops : List (MicroOp V))
    (hpc : a.pc = .finishing (.setCell st :: ops))
      (h : w'.state view a.key = st)

theorem works_finishing_cons {op : MicroOp V} {ops : List (MicroOp V)} (hs : op.setsCell = false) :
    (Pc.finishing (op :: ops)).works = (Pc.finishing ops).works := by
  simp [Pc.works, Pc.follows, owns_finishing_cons hs]

theorem works_afterRevalidation {view : ViewId} {rev : Revision} {src : Source V} {b : Bool}
    (h : (afterRevalidation view rev src b).works) : src.isShared := by
  cases src with
  | cell deps ch f => cases b <;> cases h
  | shared F prev => rfl

theorem Touched.works {w w' : World V} {view : ViewId} {a a' : Activation V} {src : Source V}
    {rest : List Dep} {r : PicanteResult Revision} (h : Touched w view a src rest r w' a')
    (hworks : a'.pc.works) : src.isShared := by
  cases h with
  | unchanged _ => simpa [Activation.moveTo, Pc.works, Pc.owns, Pc.follows] using hworks
  | changed _ => exact works_afterRevalidation hworks
  | failed => cases hworks

theorem Resumed.works {w w' : World V} {view : ViewId} {p p' : Activation V}
    {r : AccessResult V} (h : Resumed w view p r w' p') (hworks : p'.pc.works) : p.pc.works := by
  cases h with
  | touched hpc ht =>
    rw [hpc]
    simpa [Pc.works, Pc.owns, Pc.follows] using ht.works hworks
  | answered hpc => rw [hpc]; rfl
  | idle _ => exact hworks

section step

variable [DecidableEq V] {S : Schema V} {w w' : World V} {view : ViewId} {task : TaskId}
  {below : List (Activation V)} {a a' : Activation V}

omit [DecidableEq V] in
/-- What no step but one that replaces the state of the cell does. -/
theorem WorkEffect.of_state (hworks : a'.pc.works → a.pc.works)
    (hw : ∀ i k, w'.state i k = w.state i k) :
    WorkEffect w w' view a.key a.pc a'.pc :=
  .continues hworks fun i k h => hw i k ▸ h

/-- **The effect of a step on the work for cells.** -/
theorem ActStep.workEffect (h : ActStep S w view task below a w' (.goto a'))
    (hops : a.pc.OpsOk) : WorkEffect w w' view a.key a.pc a'.pc := by
  have hother : ∀ i k, ¬ (i = view ∧ k = a.key) → w'.state i k = w.state i k := fun i k hk =>
    congrArg ErasedCell.state (h.cell_other hk)
  cases h with
  | top _ | listen _ | hit _ _ _ | stale _ _ _ | poison _ _ | retry _ _ | park _ _ | wake _ _
  | overtaken _ | followCancelled _ | restart _ _ =>
    exact .of_state (fun h => by cases h) fun _ _ => rfl
  | accept hpc | unregistered hpc _ =>
    refine .of_state (fun h => ?_) fun _ _ => rfl
    rw [hpc]
    simpa [Pc.works, Pc.owns, Pc.follows] using works_afterRevalidation h
  | touchInput hpc _ ht | touchInterned hpc _ _ ht =>
    refine .of_state (fun h => ?_) fun i k => ht.same.state i k
    rw [hpc]
    simpa [Pc.works, Pc.owns, Pc.follows] using ht.works h
  | touchMissing _ _ _ | touchCycle _ _ _ => exact .of_state (fun h => by cases h) fun _ _ => rfl
  | @reverify r hpc hs =>
    refine .continues (fun h => by cases h) fun i k h => ?_
    by_cases hk : i = view ∧ k = a.key
    · rw [hk.1, hk.2, hs]
      rfl
    · rwa [hother i k hk] at h
  | @start prev hpc hs =>
    refine .starts hpc ?_ (by rw [World.state_setCell_self]; rfl) hother
    rcases hs with ⟨r, hs, -⟩ | ⟨hs | ⟨e, ver, hs, -⟩, -⟩
    · exact .inl (by rw [hs]; rfl)
    · exact .inr hs
    · exact .inl (by rw [hs]; rfl)
  | sharedMiss hpc hlook _ =>
    rw [hpc]
    rcases hlook with rfl | rfl <;> exact .continues (fun _ => rfl) fun _ _ h => h
  | sharedHit hpc _ _ | sharedStale hpc _ _ | follow hpc _ | lead hpc _ =>
    rw [hpc]
    exact .continues (fun _ => rfl) fun _ _ h => h
  | followReset hpc =>
    rw [hpc]
    refine .continues (fun _ => rfl) fun i k h => ?_
    rw [World.state_setCell] at h
    split at h
    · cases h
    · exact h
  | followListen hpc | followPark hpc | followDone hpc _ | followFailed hpc _ | followWake hpc =>
    rw [hpc]
    exact .continues (fun _ => rfl) fun _ _ h => h
  | finalize hpc | readInput hpc _ | readInterned hpc _ _ | readMissing hpc _ _
  | readCycle hpc _ _ =>
    rw [hpc]
    exact .continues (fun _ => rfl) fun _ _ h => h
  | setCell hpc =>
    rw [hpc] at hops ⊢
    obtain ⟨-, hnotifies, -⟩ := hops
    refine .ends rfl ?_ hother
    unfold Pc.notifies at hnotifies
    simp [Activation.moveTo, Pc.works, Pc.owns, Pc.follows] at hnotifies ⊢
    exact hnotifies.1
  | updateDeps hpc =>
    rw [hpc]
    refine .continues (fun h => ?_) fun i k h => ?_
    · rwa [works_finishing_cons rfl]
    · rwa [World.state_modifyRuntime] at h
  | notifyCell hpc =>
    rw [hpc]
    refine .continues (fun h => ?_) fun i k h => ?_
    · rwa [works_finishing_cons rfl]
    · rwa [World.state_notifyCell] at h
  | putShared hpc | setEntry hpc _ | notifyEntry hpc _ | unregister hpc _ =>
    rw [hpc]
    refine .continues (fun h => ?_) fun i k h => h
    rwa [works_finishing_cons rfl]
  | unguarded hpc hop _ =>
    rw [hpc]
    refine .continues (fun h => ?_) fun i k h => h
    rcases hop with ⟨st, rfl⟩ | rfl | rfl <;> rwa [works_finishing_cons rfl]

/-- An access that calls another works for its cell if it did before. -/
theorem ActStep.call_works {child : DynKey}
    (h : ActStep S w view task below a w' (.call a' child)) :
    a'.pc.works → a.pc.works := by
  intro hw
  cases h with
  | touchCall hpc _ _ | readCall hpc _ _ =>
    rw [hpc]
    exact hw

theorem ActStep.cellStep (h : ActStep S w view task below a w' (.goto a')) :
    CellStep w w' view a := by
  cases h with
  | touchInput _ _ ht | touchInterned _ _ _ ht => exact .kept (ht.same.state ..)
  | sharedMiss _ hlook _ => rcases hlook with rfl | rfl <;> exact .kept rfl
  | updateDeps _ => exact .kept (World.state_modifyRuntime ..)
  | notifyCell _ => exact .kept (World.state_notifyCell ..)
  | reverify hpc hs => exact .verified _ hpc hs (World.state_setCell_self ..)
  | start _ _ => exact .started _ _ (World.state_setCell_self ..)
  | followReset _ => exact .vacated (World.state_setCell_self ..)
  | setCell hpc => exact .stored _ _ hpc (World.state_setCell_self ..)
  | _ => exact .kept rfl

theorem ActStep.top_world {m : Move V} (h : ActStep S w view task below a w' m)
    (hpc : a.pc = .top) : w' = w := by
  cases h with
  | top _ | listen _ | hit _ _ _ | stale _ _ _ | poison _ _ | retry _ _ | park _ _ | wake _ _
  | overtaken _ | followCancelled _ | restart _ _ | touchCall _ _ _ | readCall _ _ _
  | «return» _ _ | raise _ | follow _ _ | followListen _ | followPark _ | followDone _ _
  | followFailed _ _ | followWake _ | finalize _ | readInput _ _ | readInterned _ _ _
  | unguarded _ _ _ => rfl
  | accept hpc' | unregistered hpc' _ | touchInput hpc' _ _ | touchInterned hpc' _ _ _
  | touchMissing hpc' _ _ | touchCycle hpc' _ _ | reverify hpc' _ | start hpc' _
  | sharedMiss hpc' _ _ | sharedHit hpc' _ _ | sharedStale hpc' _ _ | lead hpc' _
  | followReset hpc' | readMissing hpc' _ _ | readCycle hpc' _ _ | updateDeps hpc' | setCell hpc'
  | notifyCell hpc' | putShared hpc' | setEntry hpc' _ | notifyEntry hpc' _ | unregister hpc' _ =>
    rw [hpc] at hpc'
    cases hpc'

/-- An access that works for no cell replaces no result that is verified at its revision. -/
theorem ActStep.ready_kept (h : ActStep S w view task below a w' (.goto a')) {r : ReadyRecord V}
    (hs : w.state view a.key = .ready r) (hr : r.verifiedAt = a.rev) (hworks : a.pc.works = false) :
    w'.state view a.key = .ready r := by
  cases h with
  | top _ | listen _ | hit _ _ _ | stale _ _ _ | poison _ _ | retry _ _ | park _ _ | wake _ _
  | overtaken _ | followCancelled _ | restart _ _ | accept _ | unregistered _ _ | touchMissing _ _ _
  | touchCycle _ _ _ | sharedHit _ _ _ | sharedStale _ _ _ | follow _ _ | lead _ _
  | followListen _ | followPark _ | followDone _ _ | followFailed _ _ | followWake _ | finalize _
  | readInput _ _ | readInterned _ _ _ | readMissing _ _ _ | readCycle _ _ _ | putShared _
  | setEntry _ _ | notifyEntry _ _ | unregister _ _ | unguarded _ _ _ => exact hs
  | touchInput _ _ ht | touchInterned _ _ _ ht => rw [ht.same.state, hs]
  | sharedMiss _ hlook _ => rcases hlook with rfl | rfl <;> exact hs
  | updateDeps _ => exact (World.state_modifyRuntime ..).trans hs
  | notifyCell _ => exact (World.state_notifyCell ..).trans hs
  | reverify _ hs' =>
    rw [hs] at hs'
    cases hs'
    rw [World.state_setCell_self, ← hr]
  | start _ hs' =>
    rw [hs] at hs'
    rcases hs' with ⟨r', hr', hne, -⟩ | ⟨hv | ⟨e, ver, hv, -⟩, -⟩
    · cases hr'
      exact absurd hr hne
    · cases hv
    · cases hv
  | followReset hpc | setCell hpc =>
    rw [hpc] at hworks
    cases hworks

end step

/-! ## 2. One worker for a cell -/

/-- A cell that somebody works for is not settled, and nobody else does. -/
structure Workers (c : Config V) : Prop where
  inView : ∀ t, c.Pending t → (c.tasks t).view < c.world.viewCount
  unsettled : ∀ i k t d pc, c.Active i k t d pc → pc.works → (c.world.state i k).isSettled = false
  one : ∀ i k t d pc t' d' pc', c.Active i k t d pc → pc.works → c.Active i k t' d' pc' →
    pc'.works → t = t' ∧ d = d'

/-- No access starts at a vacant cell that somebody works for. -/
def StartsAlone (c : Config V) (l : Label V) : Prop :=
  ∀ t a below, l = .step t → (c.tasks t).stack = a :: below → a.pc = .attempt →
    c.world.state (c.tasks t).view a.key = .vacant →
      ∀ t' d pc, c.Active (c.tasks t).view a.key t' d pc → pc.works = false

theorem Workers.of_idle {c : Config V} (h : c.Idle) : Workers c where
  inView t ht := absurd ht (h t)
  unsettled i k t d pc := by
    rintro ⟨a, ha, -⟩
    exact absurd (pending_of_act ha) (h t)
  one i k t d pc t' d' pc' := by
    rintro ⟨a, ha, -⟩
    exact absurd (pending_of_act ha) (h t)

section runs

variable {c c' : Config V} {t : TaskId}

/-- Nobody starts to work, and no cell is settled. -/
theorem Workers.still (h : Workers c)
    (hin : ∀ t, c'.Pending t → (c'.tasks t).view < c'.world.viewCount)
    (hact : ∀ i k t d pc, c'.Active i k t d pc → pc.works →
      ∃ pc₀, c.Active i k t d pc₀ ∧ pc₀.works)
    (hstate : ∀ i k t d pc, c.Active i k t d pc → (c'.world.state i k).isSettled →
      (c.world.state i k).isSettled) : Workers c' where
  inView := hin
  unsettled i k t d pc ha hpc := by
    obtain ⟨pc₀, ha₀, hpc₀⟩ := hact i k t d pc ha hpc
    have hold := h.unsettled i k t d pc₀ ha₀ hpc₀
    cases hs : (c'.world.state i k).isSettled with
    | false => rfl
    | true =>
      have := hstate i k t d pc₀ ha₀ hs
      rw [hold] at this
      cases this
  one i k t d pc t' d' pc' ha hpc ha' hpc' := by
    obtain ⟨pc₀, ha₀, hpc₀⟩ := hact i k t d pc ha hpc
    obtain ⟨pc₀', ha₀', hpc₀'⟩ := hact i k t' d' pc' ha' hpc'
    exact h.one i k t d pc₀ t' d' pc₀' ha₀ hpc₀ ha₀' hpc₀'

/-- **The top activation of a task moves.** -/
theorem Workers.moved (h : Workers c) {a a' : Activation V} {below : List (Activation V)}
    {w : World V} (hst : (c.tasks t).stack = a :: below) (hkey : a'.key = a.key)
    (hcount : w.viewCount = c.world.viewCount)
    (he : WorkEffect c.world w (c.tasks t).view a.key a.pc a'.pc)
    (halone : a.pc = .attempt → c.world.state (c.tasks t).view a.key = .vacant →
      ∀ t' d pc, c.Active (c.tasks t).view a.key t' d pc → pc.works = false) :
    Workers ({ c with world := w }.setTask t { c.tasks t with stack := a' :: below }) := by
  have hin : ∀ t', ({ c with world := w }.setTask t
      { c.tasks t with stack := a' :: below }).Pending t' →
      (({ c with world := w }.setTask t { c.tasks t with stack := a' :: below }).tasks t').view <
        w.viewCount := by
    intro t' ht'
    rw [view_movedTo, hcount]
    exact h.inView t' (pending_movedTo hst ht')
  have htop : c.Active (c.tasks t).view a.key t below.length a.pc :=
    (active_top hst).mpr ⟨rfl, rfl, rfl⟩
  cases he with
  | continues hworks hw =>
    refine h.still hin (fun i k t' d pc ha hpc => ?_) fun i k _ _ _ _ hs => hw i k hs
    rw [active_moved hst] at ha
    split at ha
    · next hd =>
      obtain ⟨rfl, rfl⟩ := hd
      obtain ⟨rfl, rfl, rfl⟩ := ha
      exact ⟨a.pc, hkey ▸ htop, hworks hpc⟩
    · exact ⟨pc, ha, hpc⟩
  | starts hpc hold hnew hw =>
    -- nobody works for the cell that is started on
    have hfree : ∀ t' d pc, c.Active (c.tasks t).view a.key t' d pc → pc.works = false := by
      intro t' d pc ha
      rcases hold with hold | hold
      · cases hp : pc.works with
        | false => rfl
        | true =>
          rw [h.unsettled _ _ _ _ _ ha hp] at hold
          cases hold
      · exact halone hpc hold t' d pc ha
    have hback : ∀ i k t' d pc, ({ c with world := w }.setTask t
        { c.tasks t with stack := a' :: below }).Active i k t' d pc → pc.works →
        (t' = t ∧ d = below.length ∧ (c.tasks t).view = i ∧ a.key = k) ∨
          c.Active i k t' d pc ∧ ¬ (i = (c.tasks t).view ∧ k = a.key) := by
      intro i k t' d pc ha hpc
      rw [active_moved hst] at ha
      split at ha
      · next hd => exact .inl ⟨hd.1, hd.2, ha.1, hkey ▸ ha.2.1⟩
      · refine .inr ⟨ha, ?_⟩
        rintro ⟨rfl, rfl⟩
        rw [hfree t' d pc ha] at hpc
        cases hpc
    refine ⟨hin, fun i k t' d pc ha hpc => ?_, fun i k t₁ d₁ pc₁ t₂ d₂ pc₂ ha₁ hpc₁ ha₂ hpc₂ => ?_⟩
    · rcases hback i k t' d pc ha hpc with ⟨-, -, rfl, rfl⟩ | ⟨ha, hk⟩
      · exact hnew
      · have hs : w.state i k = c.world.state i k := hw i k hk
        show (w.state i k).isSettled = false
        rw [hs]
        exact h.unsettled i k t' d pc ha hpc
    · rcases hback i k t₁ d₁ pc₁ ha₁ hpc₁ with ⟨rfl, rfl, rfl, rfl⟩ | ⟨ha₁, hk⟩
      · rcases hback _ _ t₂ d₂ pc₂ ha₂ hpc₂ with ⟨rfl, rfl, -⟩ | ⟨-, hk⟩
        · exact ⟨rfl, rfl⟩
        · exact absurd ⟨rfl, rfl⟩ hk
      · rcases hback i k t₂ d₂ pc₂ ha₂ hpc₂ with ⟨rfl, rfl, rfl, rfl⟩ | ⟨ha₂, -⟩
        · exact absurd ⟨rfl, rfl⟩ hk
        · exact h.one i k t₁ d₁ pc₁ t₂ d₂ pc₂ ha₁ hpc₁ ha₂ hpc₂
  | ends hworks hworks' hw =>
    have hback : ∀ i k t' d pc, ({ c with world := w }.setTask t
        { c.tasks t with stack := a' :: below }).Active i k t' d pc → pc.works →
        c.Active i k t' d pc ∧ ¬ (i = (c.tasks t).view ∧ k = a.key) := by
      intro i k t' d pc ha hpc
      rw [active_moved hst] at ha
      split at ha
      · obtain ⟨-, -, rfl⟩ := ha
        rw [hworks'] at hpc
        cases hpc
      · next hd =>
        refine ⟨ha, ?_⟩
        rintro ⟨rfl, rfl⟩
        exact hd (h.one _ _ _ _ _ _ _ _ ha hpc htop hworks)
    refine ⟨hin, fun i k t' d pc ha hpc => ?_, fun i k t₁ d₁ pc₁ t₂ d₂ pc₂ ha₁ hpc₁ ha₂ hpc₂ => ?_⟩
    · obtain ⟨ha, hk⟩ := hback i k t' d pc ha hpc
      have hs : w.state i k = c.world.state i k := hw i k hk
      show (w.state i k).isSettled = false
      rw [hs]
      exact h.unsettled i k t' d pc ha hpc
    · exact h.one i k t₁ d₁ pc₁ t₂ d₂ pc₂ (hback i k t₁ d₁ pc₁ ha₁ hpc₁).1 hpc₁
        (hback i k t₂ d₂ pc₂ ha₂ hpc₂).1 hpc₂

section labels

variable [DecidableEq V] {S : Schema V}

/-- **A step of a task**, which starts at no vacant cell somebody works for. -/
theorem Workers.taskStep (h : Workers c) (hled : Led c) (hstep : TaskStep S c t c')
    (halone : StartsAlone c (.step t)) : Workers c' := by
  have hpend : ∀ t', c'.Pending t' → c.Pending t' := by
    intro t' ht'
    by_cases ht : t' = t
    · exact ht ▸ hstep.same_access.1
    · exact (hstep.pending_ne ht).mp ht'
  have hview : ∀ t', (c'.tasks t').view = (c.tasks t').view := by
    intro t'
    by_cases ht : t' = t
    · exact ht ▸ hstep.same_access.2.1
    · rw [hstep.tasks_ne ht]
  cases hstep with
  | goto hst ha =>
    exact h.moved hst ha.key ha.grows.2 (ha.workEffect (hled.ops _ _ _ (act_top hst)))
      fun hpc hs => halone _ _ _ rfl hst hpc hs
  | @call a a' below w child hst ha =>
    obtain ⟨rfl, hpc, hkey, -⟩ := ha.call_pcOk .vacant
    have hworks : a'.pc.works → a.pc.works := ha.call_works
    have hmoved := h.moved (w := c.world) hst hkey rfl (.of_state hworks fun _ _ => rfl)
      fun hpc hs => halone _ _ _ rfl hst hpc hs
    have hst' : (({ c with world := c.world }.setTask t
        { c.tasks t with stack := a' :: below }).tasks t).stack = a' :: below := by
      simp [setTask]
    -- the new access does not work for a cell yet
    refine hmoved.still (fun t' ht' => ?_) (fun i k t' d pc hact hpc => ?_) fun _ _ _ _ _ _ hs => hs
    · rw [hview]
      exact h.inView t' (hpend t' ht')
    · have hact' : (withStack ({ c with world := c.world }.setTask t
          { c.tasks t with stack := a' :: below }) t (.enter child :: a' :: below)
          (c.tasks t).result).Active i k t' d pc := by
        simpa [withStack, setTask] using hact
      rcases (active_pushed hst').mp hact' with hold | ⟨-, -, -, -, rfl⟩
      · exact ⟨pc, hold, hpc⟩
      · cases hpc
  | @ret a w r hst ha =>
    obtain rfl := ha.ret_world
    refine h.still (fun t' ht' => ?_) (fun i k t' d pc hact hpc => ?_) fun _ _ _ _ _ _ hs => hs
    · rw [hview]
      exact h.inView t' (hpend t' ht')
    · have hact' : (withStack c t [] (some r)).Active i k t' d pc := hact
      exact ⟨pc, ((active_popped hst).mp hact').1, hpc⟩
  | @resume a p p' below w w' r hst ha hp =>
    obtain rfl := ha.ret_world
    refine h.still (fun t' ht' => ?_) (fun i k t' d pc hact hpc => ?_) fun i k _ _ _ _ hs => ?_
    · rw [hview]
      exact Nat.lt_of_lt_of_eq (h.inView t' (hpend t' ht')) hp.same.viewCount.symm
    · have hst' : ((withStack c t (p :: below) (c.tasks t).result).tasks t).stack = p :: below := by
        simp [withStack, setTask]
      have hact' : ({ withStack c t (p :: below) (c.tasks t).result with world := w' }.setTask t
          { (withStack c t (p :: below) (c.tasks t).result).tasks t with
            stack := p' :: below }).Active i k t' d pc := by
        simpa [withStack, setTask] using hact
      rw [active_moved hst'] at hact'
      split at hact'
      · next hd =>
        obtain ⟨rfl, rfl⟩ := hd
        obtain ⟨hv, hk, rfl⟩ := hact'
        refine ⟨p.pc, ?_, hp.works hpc⟩
        refine ((active_popped hst).mp ((active_top hst').mpr ⟨hv, ?_, rfl⟩)).1
        rw [← hk, hp.key]
      · exact ⟨pc, ((active_popped hst).mp hact').1, hpc⟩
    · have hs' : (w'.state i k).isSettled := hs
      rwa [hp.same.state] at hs'

/-- What happens while accesses run concurrently, on views nobody changes. -/
def Label.isAccess : Label V → Bool
  | .spawn .. | .step _ | .drop _ | .snapshot => true
  | _ => false

/-- **A cell has one worker at a time**, where no access starts at a vacant cell that somebody
works for. -/
theorem Workers.step {l : Label V} (h : Workers c) (hled : Led c) (hs : step S c l = some c')
    (hl : l.isAccess) (halone : StartsAlone c l) : Workers c' := by
  cases l with
  | step t => exact h.taskStep hled (taskStep_of_step hs) halone
  | spawn view key want =>
    simp only [Config.step] at hs
    split at hs
    · next hin =>
      cases hs
      have hnew := hled.unused c.taskCount (Nat.le_refl _)
      refine h.still (fun t ht => ?_) (fun i k t d pc ha hpc => ?_) fun _ _ _ _ _ _ hs => hs
      · by_cases htask : t = c.taskCount
        · subst htask
          simpa using hin.1
        · simp only [Function.update_of_ne htask]
          exact h.inView t (by simpa [Pending, Function.update_of_ne htask] using ht)
      · rcases (active_spawned hnew).mp ha with hold | ⟨-, -, -, -, rfl⟩
        · exact ⟨pc, hold, hpc⟩
        · cases hpc
    · cases hs
  | drop t =>
    have hs' : dropTask c t = some c' := hs
    unfold dropTask at hs'
    split at hs'
    · cases hs'
    · next a below hst =>
      split at hs' <;> cases hs'
      refine h.still (fun t' ht' => ?_) (fun i k t' d pc ha hpc => ⟨pc, ?_, hpc⟩)
        fun i k _ _ _ _ hs => ?_
      · have ht : t' ≠ t := by
          rintro rfl
          simp [Pending, setTask] at ht'
        have hp := h.inView t' ((pending_setTask_ne ht _).mp ht')
        simpa [setTask, Function.update_of_ne ht, viewCount_cancelGuards] using hp
      · unfold Active at ha ⊢
        rw [act_setTask] at ha
        by_cases ht : t' = t
        · simp [ht] at ha
        · simpa [ht, setTask, act] using ha
      · have hs' : ((cancelGuards c.world (a :: below)).state i k).isSettled := hs
        rwa [World.state, cell_cancelGuards] at hs'
  | snapshot =>
    cases hs
    refine h.still (fun t ht => Nat.lt_succ_of_lt (h.inView t ht)) (fun i k t d pc ha hpc =>
      ⟨pc, ha, hpc⟩) fun i k t d pc ha hs => ?_
    have hs' : (c.world.snapshot.state i k).isSettled := hs
    have hne : i ≠ c.world.viewCount := by
      obtain ⟨a, ha, rfl, -⟩ := ha
      exact Nat.ne_of_lt (h.inView t (pending_of_act ha))
    rwa [World.state_snapshot, if_neg hne] at hs'
  | mutate view key value | «begin» view key value | advance m | intern kind value | bump view =>
    cases hl

/-! ## 3. Results that are verified -/

omit [DecidableEq V] in
/-- An access to a settled cell does not work for it. -/
theorem Workers.idle_of_settled (h : Workers c) {i : ViewId} {k : DynKey} {d : Nat} {pc : Pc V}
    (hact : c.Active i k t d pc) (hs : (c.world.state i k).isSettled) : pc.works = false := by
  cases hp : pc.works with
  | false => rfl
  | true =>
    rw [h.unsettled i k t d pc hact hp] at hs
    cases hs

/-- **A result that is verified at the revision of the accesses to its view stays.** -/
theorem Workers.stable {l : Label V} (h : Workers c) (hs : Config.step S c l = some c')
    (hl : l.isAccess) {i : ViewId} {q : DynKey} {r : ReadyRecord V} (hi : i < c.world.viewCount)
    (hr : c.world.state i q = .ready r)
    (hfresh : ∀ t d a, c.act t d = some a → (c.tasks t).view = i →
      a.pc = .top ∨ a.rev = r.verifiedAt) : c'.world.state i q = .ready r := by
  cases l with
  | step t =>
    have hstep := taskStep_of_step hs
    cases hstep with
    | @goto a a' below w hst ha =>
      have htop := act_top hst
      by_cases hk : i = (c.tasks t).view ∧ q = a.key
      · obtain ⟨rfl, rfl⟩ := hk
        have hworks := h.idle_of_settled ((active_top hst).mpr ⟨rfl, rfl, rfl⟩)
          (by rw [hr]; rfl)
        rcases hfresh _ _ _ htop rfl with hpc | hrev
        · obtain rfl := ha.top_world hpc
          exact hr
        · exact ha.ready_kept hr hrev.symm hworks
      · exact (congrArg ErasedCell.state (ha.cell_other hk)).trans hr
    | call hst ha =>
      obtain ⟨rfl, -⟩ := ha.call_pcOk .vacant
      exact hr
    | ret hst ha =>
      obtain rfl := ha.ret_world
      exact hr
    | resume hst ha hp =>
      obtain rfl := ha.ret_world
      exact (hp.same.state i q).trans hr
  | spawn view key want =>
    simp only [Config.step] at hs
    split at hs <;> cases hs
    exact hr
  | drop t =>
    have hs' : dropTask c t = some c' := hs
    unfold dropTask at hs'
    split at hs'
    · cases hs'
    · split at hs' <;> cases hs'
      exact (congrArg ErasedCell.state (cell_cancelGuards ..)).trans hr
  | snapshot =>
    cases hs
    exact (World.state_snapshot ..).trans ((if_neg (Nat.ne_of_lt hi)).trans hr)
  | mutate view key value | «begin» view key value | advance m | intern kind value | bump view =>
    cases hl

end labels

end runs

end Picante

/-
# Who minds a cell

The control invariant of the access machine, for any interleaving of accesses on any number of
views: a running cell has an activation that will replace it, and an access parked on a cell
has an activation that will wake it.  It says nothing about values.

* `Pc.owns` -- between putting the cell in state running and replacing that state.
* `WillNotify` -- by the state of the cell, which activations still lead to a notification: of
  a running cell its owner, of a settled cell the activation that settled it and has not
  notified yet, and of a vacant cell the follower that reset it, also when its leader was
  cancelled and it has gone back to the head of its loop.
* `Control` -- the invariant; `control_step` -- every step keeps it, unless a revalidation of a
  shared record fails or a future is dropped that somebody still needs.

A step changes at most one cell, in one of five ways (`CellEffect`); the argument is made once
for each of them instead of for each branch of the machine.
-/
import Picante.Steps

namespace Picante

variable {V : Type}

/-! ## 1. What an activation still owes -/

/-- The operation sets the state of the cell. -/
def MicroOp.setsCell : MicroOp V → Bool
  | .setCell _ => true
  | _ => false

/-- The operation notifies the waiters of the cell. -/
def MicroOp.notifiesCell : MicroOp V → Bool
  | .notifyCell => true
  | _ => false

/-- The state is a result. -/
def ErasedState.isSettled : ErasedState V → Bool
  | .ready _ | .poisoned .. => true
  | _ => false

namespace Pc

/-- Has put its cell in state running and not replaced that state. -/
def owns : Pc V → Bool
  | .sharedGet _ | .lead _ | .followReset _ | .computing .. | .reading .. => true
  | .revalidate src _ => src.isShared
  | .touching src _ _ => src.isShared
  | .finishing ops => ops.any (·.setsCell)
  | _ => false

/-- Has reset its cell and waits for its leader. -/
def follows : Pc V → Bool
  | .followListen _ | .followRead .. | .followParked .. => true
  | _ => false

/-- Is on its way from the head of the loop to the start of a computation. -/
def retries : Pc V → Bool
  | .top | .listen | .observe _ | .attempt => true
  | _ => false

/-- Has settled its cell and not notified the waiters. -/
def notifies : Pc V → Bool
  | .finishing ops => !ops.any (·.setsCell) && ops.any (·.notifiesCell)
  | _ => false

/-- Will start or end a computation for the cell, when it finds the cell vacant. -/
def minds (pc : Pc V) : Bool := pc.owns || pc.follows || pc.retries

/-- The notifications of its cell it had seen when it created its `notified` future. -/
def seen : Pc V → Option Nat
  | .observe n | .parked n => some n
  | _ => none

/-- Waits for a nested access to `k`. -/
def waitsFor (k : DynKey) : Pc V → Prop
  | .touching _ dep _ => dep = k
  | .reading _ d _ _ => d = k
  | _ => False

end Pc

/-- In a straight-line part the cell is set to a result, once, and its waiters are notified
after that; a result ends the part. -/
def OpsOk : List (MicroOp V) → Prop
  | [] => True
  | .setCell st :: ops =>
    st.isSettled ∧ (Pc.finishing ops).notifies ∧ OpsOk ops
  | .checked _ :: ops => ops = []
  | .raise _ :: ops => ops = []
  | _ :: ops => OpsOk ops

theorem OpsOk.tail {op : MicroOp V} {ops : List (MicroOp V)} (h : OpsOk (op :: ops)) :
    OpsOk ops := by
  cases op with
  | setCell st => exact h.2.2
  | checked r => obtain rfl : ops = [] := h; trivial
  | raise r => obtain rfl : ops = [] := h; trivial
  | updateDeps _ | notifyCell | putShared _ | setEntry _ | notifyEntry | unregister => exact h

/-- All the straight-line parts of an activation are well formed. -/
def Pc.OpsOk : Pc V → Prop
  | .finishing ops => Picante.OpsOk ops
  | _ => True

theorem opsOk_adoptOps (view : ViewId) (rev : Revision) (record : SharedCacheRecord V) :
    OpsOk (adoptOps view rev record) :=
  ⟨rfl, rfl, rfl⟩

theorem opsOk_followOps (view leader : ViewId) (rev : Revision) (value : V) (deps : List Dep)
    (ch : Revision) : OpsOk (followOps view leader rev value deps ch) :=
  ⟨rfl, rfl, rfl⟩

theorem opsOk_followFailedOps (rev : Revision) (e : PicanteError) :
    OpsOk (followFailedOps (V := V) rev e) :=
  ⟨rfl, rfl, rfl⟩

theorem opsOk_finalizeOps [DecidableEq V] (view : ViewId) (rev : Revision) (prev : Previous V)
    (deps : List Dep) (out : PicanteResult V) : OpsOk (finalizeOps view rev prev deps out) := by
  cases out with
  | ok value => exact ⟨rfl, rfl, rfl⟩
  | error e => exact ⟨rfl, rfl, rfl⟩

theorem opsOk_afterRevalidation (view : ViewId) (rev : Revision) (src : Source V) (b : Bool) :
    (afterRevalidation view rev src b).OpsOk := by
  cases src with
  | cell deps ch f => cases b <;> trivial
  | shared record prev =>
    cases b with
    | true => exact opsOk_adoptOps view rev record
    | false => trivial

/-- The event of a shared record's revalidation that failed, and left its cell running. -/
def Event.isSharedFailure : Event → Bool
  | .revalidated _ _ true _ .failed => true
  | _ => false

/-- A shared record's revalidation has failed. -/
def SharedFailed (log : List Event) : Prop := ∃ e ∈ log, e.isSharedFailure

instance (log : List Event) : Decidable (SharedFailed log) :=
  inferInstanceAs (Decidable (∃ e ∈ log, _))

/-! ## 2. What a step does to a cell -/

/-- The activation keeps what it owes while no cell changes. -/
structure PcOk (st : ErasedState V) (pc pc' : Pc V) : Prop where
  owns : pc.owns → pc'.owns
  notifies : pc.notifies → pc'.notifies
  minds : st = .vacant → pc.minds → pc'.minds
  parks : ∀ seen, pc' = .parked seen → ∃ started o, st = .running started o

/-- The five ways in which a step of an activation bears on cells. -/
inductive CellEffect (w w' : World V) (view : ViewId) (key : DynKey) (o : Owner)
    (pc pc' : Pc V) : Prop
  | same (hw : ∀ i k, w'.cell i k = w.cell i k) (hpc : PcOk (w.state view key) pc pc')
  | started (rev : Revision) (hw : w' = w.setCell view key (.running rev o)) (hpc : pc'.owns)
      (hp : ∀ seen, pc' ≠ .parked seen)
  | reset (hw : w' = w.setCell view key .vacant) (hpc : pc'.follows)
  | settled (st : ErasedState V) (hw : w' = w.setCell view key st) (hst : st.isSettled)
      (hpc : pc'.notifies ∨ (w.state view key).isSettled ∧ ¬ pc.notifies)
      (hp : ∀ seen, pc' ≠ .parked seen)
  | notified (hw : w' = w.notifyCell view key) (howns : pc.owns → pc'.owns)
      (hminds : pc.minds → pc'.minds) (hp : ∀ seen, pc' ≠ .parked seen)

theorem pcOk_afterRevalidation {st : ErasedState V} {view : ViewId} {rev : Revision}
    {src : Source V} {b : Bool} {pc : Pc V} (hpc : pc.owns → src.isShared)
    (hn : pc.notifies = false) (hm : pc.minds = pc.owns) :
    PcOk st pc (afterRevalidation view rev src b) := by
  have howns : pc.owns → (afterRevalidation view rev src b).owns := by
    intro h
    cases src with
    | cell deps ch f => exact absurd (hpc h) (by simp [Source.isShared])
    | shared record prev => cases b <;> rfl
  refine ⟨howns, fun h => by simp [hn] at h, fun _ h => ?_, fun seen h => ?_⟩
  · have := howns (hm ▸ h)
    simp [Pc.minds, this]
  · cases src <;> cases b <;> simp [afterRevalidation] at h

theorem Touched.pcOk {w w' : World V} {view : ViewId} {a a' : Activation V} {src : Source V}
    {rest : List Dep} {r : PicanteResult Revision} (h : Touched w view a src rest r w' a')
    (hclean : ¬ SharedFailed w'.log) {st : ErasedState V} (hpc : a.pc.owns = src.isShared)
    (hn : a.pc.notifies = false) (hm : a.pc.minds = a.pc.owns) : PcOk st a.pc a'.pc := by
  cases h with
  | unchanged _ =>
    have howns : a.pc.owns → (Pc.revalidate src rest).owns := fun h => hpc.symm.trans h
    refine ⟨howns, fun h => by simp [hn] at h, fun _ h => ?_, fun seen h => nomatch h⟩
    have := howns (hm ▸ h)
    simp [Pc.minds, Activation.moveTo, this]
  | changed _ => exact pcOk_afterRevalidation (fun h => hpc ▸ h) hn hm
  | failed =>
    -- only a record of the cell may fail in a clean run, and then nothing is owned
    have hcell : src.isShared = false := by
      cases hs : src.isShared with
      | false => rfl
      | true => exact absurd ⟨_, List.mem_cons_self .., by rw [hs]; rfl⟩ hclean
    have hown : a.pc.owns = false := hpc.trans hcell
    refine ⟨fun h => by simp [hown] at h, fun h => by simp [hn] at h, fun _ h => ?_,
      fun seen h => nomatch h⟩
    rw [hm, hown] at h
    cases h

theorem pcOk_revalidate {st : ErasedState V} {src : Source V} {rest : List Dep} {pc' : Pc V}
    (howns : src.isShared → pc'.owns) (hp : ∀ seen, pc' ≠ .parked seen) :
    PcOk st (.revalidate src rest) pc' := by
  refine ⟨howns, nofun, fun _ h => ?_, fun seen h => absurd h (hp seen)⟩
  have h' : src.isShared = true := by simpa [Pc.minds, Pc.owns, Pc.follows, Pc.retries] using h
  simp [Pc.minds, howns h']

theorem owns_finishing_cons {op : MicroOp V} {ops : List (MicroOp V)}
    (hs : op.setsCell = false) :
    (Pc.finishing (op :: ops)).owns = (Pc.finishing ops).owns := by
  simp [Pc.owns, hs]

theorem minds_finishing_cons {op : MicroOp V} {ops : List (MicroOp V)}
    (hs : op.setsCell = false) :
    (Pc.finishing (op :: ops)).minds = (Pc.finishing ops).minds := by
  simp [Pc.minds, Pc.follows, Pc.retries, owns_finishing_cons hs]

/-- A straight-line part owes what its remaining operations do. -/
theorem pcOk_finishing {st : ErasedState V} {op : MicroOp V} {ops : List (MicroOp V)}
    (hs : op.setsCell = false) (hn : op.notifiesCell = false) :
    PcOk st (.finishing (op :: ops)) (.finishing ops) := by
  refine ⟨fun h => owns_finishing_cons hs ▸ h, fun h => ?_, fun _ h => ?_, nofun⟩
  · simpa [Pc.notifies, hs, hn] using h
  · exact minds_finishing_cons hs ▸ h

/-- A nested access leaves its caller owing what it owed. -/
theorem ActStep.call_pcOk [DecidableEq V] {S : Schema V} {w w' : World V} {view : ViewId}
    {task : TaskId} {below : List (Activation V)} {a a' : Activation V} {child : DynKey}
    (h : ActStep S w view task below a w' (.call a' child)) (st : ErasedState V) :
    w' = w ∧ PcOk st a.pc a'.pc ∧ a'.key = a.key ∧ a'.pc.OpsOk ∧ a'.pc.waitsFor child ∧
      child ∉ (a :: below).map (·.key) := by
  cases h with
  | touchCall hpc hk hc =>
    exact ⟨rfl, hpc ▸ pcOk_revalidate (fun h => h) nofun, rfl, trivial, rfl, hc⟩
  | readCall hpc hk hc =>
    refine ⟨rfl, ?_, rfl, trivial, rfl, hc⟩
    rw [hpc]
    exact ⟨fun _ => rfl, nofun, fun _ _ => rfl, nofun⟩

/-- An activation that returns owes nothing. -/
theorem ActStep.ret_owes [DecidableEq V] {S : Schema V} {w w' : World V} {view : ViewId}
    {task : TaskId} {below : List (Activation V)} {a : Activation V} {r : AccessResult V}
    (h : ActStep S w view task below a w' (.ret r)) (hops : a.pc.OpsOk) :
    w' = w ∧ a.pc.owns = false ∧ a.pc.notifies = false ∧ a.pc.minds = false := by
  cases h with
  | «return» hpc _ | raise hpc =>
    rw [hpc] at hops ⊢
    obtain rfl := hops
    exact ⟨rfl, rfl, rfl, rfl⟩

theorem Touched.opsOk {w w' : World V} {view : ViewId} {a a' : Activation V} {src : Source V}
    {rest : List Dep} {r : PicanteResult Revision} (h : Touched w view a src rest r w' a') :
    a'.pc.OpsOk := by
  cases h with
  | unchanged _ => trivial
  | changed _ => exact opsOk_afterRevalidation ..
  | failed => rfl

/-- **The effect of a step on cells**, in a run without a failed shared revalidation. -/
theorem ActStep.cellEffect [DecidableEq V] {S : Schema V} {w w' : World V} {view : ViewId}
    {task : TaskId} {below : List (Activation V)} {a a' : Activation V}
    (h : ActStep S w view task below a w' (.goto a')) (hops : a.pc.OpsOk)
    (hclean : ¬ SharedFailed w'.log) :
    CellEffect w w' view a.key ⟨task, below.length⟩ a.pc a'.pc ∧ a'.key = a.key ∧
      a'.pc.OpsOk := by
  cases h with
  | top hpc | listen hpc | stale hpc _ _ | retry hpc _ | wake hpc _ =>
    refine ⟨.same (fun _ _ => rfl) ?_, rfl, trivial⟩
    rw [hpc]
    constructor <;> simp_all [Pc.owns, Pc.notifies, Pc.minds, Pc.follows, Pc.retries,
      Activation.moveTo, Source.isShared]
  | park hpc hs =>
    refine ⟨.same (fun _ _ => rfl) ?_, rfl, trivial⟩
    rw [hpc, hs]
    exact ⟨nofun, nofun, nofun, fun _ _ => ⟨_, _, rfl⟩⟩
  | hit hpc hs _ | poison hpc hs =>
    refine ⟨.same (fun _ _ => rfl) ?_, rfl, rfl⟩
    rw [hpc, hs]
    exact ⟨nofun, nofun, nofun, nofun⟩
  | overtaken hpc =>
    refine ⟨.same (fun _ _ => rfl) ?_, rfl, trivial⟩
    rcases hpc with hpc | hpc
    · rw [hpc]; exact ⟨nofun, nofun, fun _ _ => rfl, nofun⟩
    · rw [hpc]; exact ⟨nofun, nofun, fun _ _ => rfl, nofun⟩
  | accept hpc | unregistered hpc _ =>
    refine ⟨.same (fun _ _ => rfl) ?_, rfl, opsOk_afterRevalidation ..⟩
    rw [hpc]
    exact pcOk_afterRevalidation (fun h => h) rfl (by simp [Pc.minds, Pc.follows, Pc.retries])
  | touchInput hpc _ ht | touchInterned hpc _ _ ht =>
    have hok : ∀ st, PcOk st a.pc a'.pc := fun st =>
      ht.pcOk hclean (by rw [hpc]; rfl) (by rw [hpc]; rfl)
        (by simp [hpc, Pc.minds, Pc.follows, Pc.retries])
    exact ⟨.same ht.same.cell (hok _), ht.key, ht.opsOk⟩
  | @touchMissing src _ _ hpc _ _ | @touchCycle src _ _ hpc _ _ =>
    have hcell : src.isShared = false := by
      cases hs : src.isShared with
      | false => rfl
      | true => exact absurd ⟨_, List.mem_cons_self .., by rw [hs]; rfl⟩ hclean
    refine ⟨.same (fun _ _ => rfl) ?_, rfl, rfl⟩
    rw [hpc]
    exact pcOk_revalidate (fun h => by simp [hcell] at h) nofun
  | reverify hpc hs =>
    refine ⟨.settled _ rfl rfl (.inr ?_) nofun, rfl, rfl⟩
    rw [hs, hpc]
    exact ⟨rfl, nofun⟩
  | start hpc hs => exact ⟨.started _ rfl rfl nofun, rfl, trivial⟩
  | sharedMiss hpc hw _ =>
    have hcell : ∀ i k, w'.cell i k = w.cell i k := by
      rcases hw with rfl | rfl <;> exact fun _ _ => rfl
    refine ⟨.same hcell ?_, rfl, trivial⟩
    rw [hpc]
    exact ⟨fun _ => rfl, nofun, fun _ _ => rfl, nofun⟩
  | sharedStale hpc _ _ | follow hpc _ | lead hpc _ =>
    refine ⟨.same (fun _ _ => rfl) ?_, rfl, trivial⟩
    rw [hpc]
    exact ⟨fun _ => rfl, nofun, fun _ _ => rfl, nofun⟩
  | sharedHit hpc _ _ =>
    refine ⟨.same (fun _ _ => rfl) ?_, rfl, opsOk_adoptOps ..⟩
    rw [hpc]
    exact ⟨fun _ => rfl, nofun, fun _ _ => rfl, nofun⟩
  | followReset hpc => exact ⟨.reset rfl rfl, rfl, trivial⟩
  | followListen hpc | followPark hpc | followCancelled hpc | followWake hpc =>
    refine ⟨.same (fun _ _ => rfl) ?_, rfl, trivial⟩
    rw [hpc]
    exact ⟨nofun, nofun, fun _ _ => rfl, nofun⟩
  | followDone hpc _ =>
    refine ⟨.same (fun _ _ => rfl) ?_, rfl, opsOk_followOps ..⟩
    rw [hpc]
    exact ⟨nofun, nofun, fun _ _ => rfl, nofun⟩
  | followFailed hpc _ =>
    refine ⟨.same (fun _ _ => rfl) ?_, rfl, opsOk_followFailedOps ..⟩
    rw [hpc]
    exact ⟨nofun, nofun, fun _ _ => rfl, nofun⟩
  | @finalize _ out _ hpc =>
    refine ⟨.same (fun _ _ => rfl) ?_, rfl, opsOk_finalizeOps ..⟩
    rw [hpc]
    cases out with
    | ok value => exact ⟨fun _ => rfl, nofun, fun _ _ => rfl, nofun⟩
    | error e => exact ⟨fun _ => rfl, nofun, fun _ _ => rfl, nofun⟩
  | readInput hpc _ | readInterned hpc _ _ | readMissing hpc _ _ | readCycle hpc _ _ =>
    refine ⟨.same (fun _ _ => rfl) ?_, rfl, trivial⟩
    rw [hpc]
    exact ⟨fun _ => rfl, nofun, fun _ _ => rfl, nofun⟩
  | updateDeps hpc =>
    rw [hpc] at hops ⊢
    exact ⟨.same (fun _ _ => World.cell_modifyRuntime ..) (pcOk_finishing rfl rfl), rfl,
      hops.tail⟩
  | @setCell st ops hpc =>
    rw [hpc] at hops ⊢
    obtain ⟨hst, hn, hops⟩ := hops
    exact ⟨.settled st rfl hst (.inl hn) nofun, rfl, hops⟩
  | notifyCell hpc =>
    rw [hpc] at hops ⊢
    have hs : (MicroOp.notifyCell : MicroOp V).setsCell = false := rfl
    exact ⟨.notified rfl (fun h => owns_finishing_cons hs ▸ h)
      (fun h => minds_finishing_cons hs ▸ h) nofun, rfl, hops.tail⟩
  | putShared hpc | setEntry hpc _ | notifyEntry hpc _ | unregister hpc _ =>
    rw [hpc] at hops ⊢
    exact ⟨.same (fun _ _ => rfl) (pcOk_finishing rfl rfl), rfl, hops.tail⟩
  | unguarded hpc hop _ =>
    rw [hpc] at hops ⊢
    rcases hop with ⟨st, rfl⟩ | rfl | rfl
    · exact ⟨.same (fun _ _ => rfl) (pcOk_finishing rfl rfl), rfl, hops.tail⟩
    · exact ⟨.same (fun _ _ => rfl) (pcOk_finishing rfl rfl), rfl, hops.tail⟩
    · exact ⟨.same (fun _ _ => rfl) (pcOk_finishing rfl rfl), rfl, hops.tail⟩
  | restart hpc _ =>
    rw [hpc] at hops ⊢
    obtain rfl := hops
    exact ⟨.same (fun _ _ => rfl) ⟨nofun, nofun, fun _ _ => rfl, nofun⟩, rfl, trivial⟩

/-- The effect of a result on the activation that was waiting for it. -/
theorem Resumed.pcOk {w w' : World V} {view : ViewId} {p p' : Activation V} {r : AccessResult V}
    (h : Resumed w view p r w' p') {k : DynKey} (hwait : p.pc.waitsFor k)
    (hclean : ¬ SharedFailed w'.log) (st : ErasedState V) :
    PcOk st p.pc p'.pc ∧ p'.key = p.key ∧ p'.pc.OpsOk := by
  cases h with
  | touched hpc ht =>
    exact ⟨ht.pcOk hclean (by rw [hpc]; rfl) (by rw [hpc]; rfl)
      (by simp [hpc, Pc.minds, Pc.follows, Pc.retries]), ht.key, ht.opsOk⟩
  | answered hpc =>
    rw [hpc]
    exact ⟨⟨fun _ => rfl, nofun, fun _ _ => rfl, nofun⟩, rfl, trivial⟩
  | idle hpc =>
    cases hp : p.pc with
    | touching src dep rest => exact absurd hp (hpc.1 src dep rest)
    | reading prev d k deps => exact absurd hp (hpc.2 prev d k deps)
    | _ => simp [hp, Pc.waitsFor] at hwait

theorem seen_afterRevalidation (view : ViewId) (rev : Revision) (src : Source V) (b : Bool) :
    (afterRevalidation view rev src b).seen = none := by
  cases src <;> cases b <;> rfl

theorem Touched.seen {w w' : World V} {view : ViewId} {a a' : Activation V} {src : Source V}
    {rest : List Dep} {r : PicanteResult Revision} (h : Touched w view a src rest r w' a') :
    a'.pc.seen = none := by
  cases h with
  | unchanged _ => rfl
  | changed _ => exact seen_afterRevalidation ..
  | failed => rfl

theorem Resumed.seen {w w' : World V} {view : ViewId} {p p' : Activation V} {r : AccessResult V}
    (h : Resumed w view p r w' p') {k : DynKey} (hwait : p.pc.waitsFor k) :
    p'.pc.seen = none := by
  cases h with
  | touched hpc ht => exact ht.seen
  | answered hpc => rfl
  | idle _ => cases hp : p.pc <;> simp_all [Pc.waitsFor, Pc.seen]

/-- An activation has seen no notification that has not happened. -/
theorem ActStep.seen [DecidableEq V] {S : Schema V} {w w' : World V} {view : ViewId}
    {task : TaskId} {below : List (Activation V)} {a a' : Activation V}
    (h : ActStep S w view task below a w' (.goto a'))
    (ha : ∀ n, a.pc.seen = some n → n ≤ (w.cell view a.key).epoch) {n : Nat}
    (hn : a'.pc.seen = some n) : n ≤ (w.cell view a.key).epoch := by
  cases h with
  | listen hpc => exact Nat.le_of_eq (Option.some.inj hn).symm
  | park hpc hs => exact ha n (by rw [hpc]; exact hn)
  | accept hpc | unregistered hpc _ => simp [Activation.moveTo, seen_afterRevalidation] at hn
  | touchInput hpc _ ht | touchInterned hpc _ _ ht => simp [ht.seen] at hn
  | _ => cases hn

/-! ## 3. The invariant -/

/-- The activation at depth `d` of task `t` is an access on view `i` to key `k`, at `pc`. -/
def Config.Active (c : Config V) (i : ViewId) (k : DynKey) (t : TaskId) (d : Nat) (pc : Pc V) :
    Prop :=
  ∃ a, c.act t d = some a ∧ (c.tasks t).view = i ∧ a.key = k ∧ a.pc = pc

/-- From here an activation goes on to notify the waiters of its cell, whose state is `st`: the
owner of a running cell, the one that has settled a cell, and of a vacant cell everyone who
will end or start a computation for it. -/
def WillNotify : ErasedState V → Pc V → Prop
  | .running .., pc => pc.owns
  | .vacant, pc => pc.minds
  | .ready _, pc => pc.notifies
  | .poisoned .., pc => pc.notifies

/-- The access at depth `d` of task `t` is parked on its cell, and has not been notified. -/
def Config.Parked (c : Config V) (i : ViewId) (k : DynKey) (t : TaskId) (d : Nat) : Prop :=
  c.Active i k t d (.parked (c.world.cell i k).epoch)

/-- Some live access on view `i` to `k` will call `notify_waiters` on the cell. -/
def Config.Minded (c : Config V) (i : ViewId) (k : DynKey) : Prop :=
  ∃ t d pc, c.Active i k t d pc ∧ WillNotify (c.world.state i k) pc

/-- The owner recorded in a running cell is a live access that has not replaced the state. -/
def Config.Owned (c : Config V) (i : ViewId) (k : DynKey) (o : Owner) : Prop :=
  ∃ pc, c.Active i k o.task o.depth pc ∧ pc.owns

/-- The control invariant. -/
structure Control (c : Config V) : Prop where
  unused : ∀ t, c.taskCount ≤ t → (c.tasks t).stack = []
  inView : ∀ t, c.Pending t → (c.tasks t).view < c.world.viewCount
  ops : ∀ t d a, c.act t d = some a → a.pc.OpsOk
  waits : ∀ t d a b, c.act t d = some a → c.act t (d + 1) = some b → a.pc.waitsFor b.key
  nodup : ∀ t, ((c.tasks t).stack.map (·.key)).Nodup
  seen : ∀ i k t d pc n, c.Active i k t d pc → pc.seen = some n → n ≤ (c.world.cell i k).epoch
  owned : ∀ i k started o, c.world.state i k = .running started o → c.Owned i k o
  minded : ∀ i k t d, c.Parked i k t d → c.Minded i k

theorem control_init : Control (Config.init : Config V) := by
  refine ⟨fun _ _ => rfl, fun _ h => absurd rfl h, ?_, ?_, fun _ => List.nodup_nil, ?_, ?_, ?_⟩
  · intro t d a h
    cases h
  · intro t d a b h
    cases h
  · rintro i k t d pc n ⟨a, h, -⟩
    cases h
  · intro i k started o h
    cases h
  · rintro i k t d ⟨a, h, -⟩
    cases h

/-! ## 4. One activation moves, one returns, one is called -/

namespace Config

variable {c : Config V} {t : TaskId} {a a' : Activation V} {below : List (Activation V)}

/-- Where the activations are after the top one has moved. -/
theorem active_moved {w : World V} (hst : (c.tasks t).stack = a :: below) {i : ViewId}
    {k : DynKey} {t' : TaskId} {d : Nat} {pc : Pc V} :
    ({ c with world := w }.setTask t { c.tasks t with stack := a' :: below }).Active i k t' d pc ↔
      if t' = t ∧ d = below.length then (c.tasks t).view = i ∧ a'.key = k ∧ a'.pc = pc
      else c.Active i k t' d pc := by
  have hview : (({ c with world := w }.setTask t
      { c.tasks t with stack := a' :: below }).tasks t').view = (c.tasks t').view := by
    unfold setTask
    by_cases ht : t' = t
    · subst ht; simp
    · simp [Function.update_of_ne ht]
  unfold Active
  rw [act_goto hst, hview]
  by_cases h : t' = t ∧ d = below.length
  · obtain ⟨rfl, rfl⟩ := h
    simp
  · simp [h]

/-- The top activation, where it is. -/
theorem active_top (hst : (c.tasks t).stack = a :: below) {i : ViewId} {k : DynKey} {pc : Pc V} :
    c.Active i k t below.length pc ↔ (c.tasks t).view = i ∧ a.key = k ∧ a.pc = pc := by
  unfold Active
  rw [act_top hst]
  simp

end Config

/-- An activation keeps minding its cell while the cell stays as it is. -/
theorem PcOk.willNotify {st : ErasedState V} {pc pc' : Pc V} (h : PcOk st pc pc')
    (hn : WillNotify st pc) : WillNotify st pc' := by
  cases st with
  | running started o => exact h.owns hn
  | vacant => exact h.minds rfl hn
  | ready r => exact h.notifies hn
  | poisoned e ver => exact h.notifies hn

theorem willNotify_settled {st : ErasedState V} (hst : st.isSettled) {pc : Pc V} :
    WillNotify st pc ↔ pc.notifies := by
  cases st with
  | running started o => cases hst
  | vacant => cases hst
  | ready r => rfl
  | poisoned e ver => rfl

section moved

open Config

variable {c : Config V} {t : TaskId} {a a' : Activation V} {below : List (Activation V)}
  {w : World V}

/-- The configuration after the top activation of `t` has become `a'`. -/
abbrev movedTo (c : Config V) (t : TaskId) (below : List (Activation V)) (w : World V)
    (a' : Activation V) : Config V :=
  { c with world := w }.setTask t { c.tasks t with stack := a' :: below }

/-- What the top activation was active for, it is active for after its move. -/
theorem Config.Active.moved (hst : (c.tasks t).stack = a :: below) (hkey : a'.key = a.key)
    {i : ViewId} {k : DynKey} {t' : TaskId} {d : Nat} {pc : Pc V} (h : c.Active i k t' d pc) :
    (movedTo c t below w a').Active i k t' d pc ∧ ¬ (t' = t ∧ d = below.length) ∨
      (movedTo c t below w a').Active i k t' d a'.pc ∧ a.pc = pc ∧ (c.tasks t).view = i ∧
        a.key = k := by
  by_cases htop : t' = t ∧ d = below.length
  · obtain ⟨rfl, rfl⟩ := htop
    obtain ⟨hv, hk, hpc⟩ := (active_top hst).mp h
    refine .inr ⟨?_, hpc, hv, hk⟩
    rw [active_moved hst, if_pos ⟨rfl, rfl⟩]
    exact ⟨hv, hkey.trans hk, rfl⟩
  · refine .inl ⟨?_, htop⟩
    rw [active_moved hst, if_neg htop]
    exact h

theorem Config.Owned.moved (hst : (c.tasks t).stack = a :: below) (hkey : a'.key = a.key)
    {i : ViewId} {k : DynKey} {o : Owner} (h : c.Owned i k o)
    (hown : (c.tasks t).view = i → a.key = k → a.pc.owns → a'.pc.owns) :
    (movedTo c t below w a').Owned i k o := by
  obtain ⟨pc, hact, hpc⟩ := h
  rcases hact.moved hst hkey with ⟨h, -⟩ | ⟨h, rfl, hv, hk⟩
  · exact ⟨pc, h, hpc⟩
  · exact ⟨a'.pc, h, hown hv hk hpc⟩

theorem Config.Minded.moved (hst : (c.tasks t).stack = a :: below) (hkey : a'.key = a.key)
    {i : ViewId} {k : DynKey} (h : c.Minded i k)
    (hother : ∀ pc, WillNotify (c.world.state i k) pc → WillNotify (w.state i k) pc)
    (hown : (c.tasks t).view = i → a.key = k → WillNotify (c.world.state i k) a.pc →
      WillNotify (w.state i k) a'.pc) :
    (movedTo c t below w a').Minded i k := by
  obtain ⟨t', d, pc, hact, hpc⟩ := h
  rcases hact.moved hst hkey with ⟨h, -⟩ | ⟨h, rfl, hv, hk⟩
  · exact ⟨t', d, pc, h, hother pc hpc⟩
  · exact ⟨t', d, a'.pc, h, hown hv hk hpc⟩

/-- Who is parked after the move was parked before, or is the activation that moved. -/
theorem Config.Parked.of_moved (hst : (c.tasks t).stack = a :: below) (hkey : a'.key = a.key)
    {i : ViewId} {k : DynKey} {t' : TaskId} {d : Nat}
    (h : (movedTo c t below w a').Parked i k t' d) :
    c.Active i k t' d (.parked (w.cell i k).epoch) ∨
      (c.tasks t).view = i ∧ a.key = k ∧ a'.pc = .parked (w.cell i k).epoch := by
  unfold Config.Parked at h
  rw [active_moved hst] at h
  by_cases htop : t' = t ∧ d = below.length
  · rw [if_pos htop] at h
    exact .inr ⟨h.1, hkey ▸ h.2.1, h.2.2⟩
  · rw [if_neg htop] at h
    exact .inl h

/-- The owners after a step of the top activation. -/
theorem Control.owned_moved (hc : Control c) (hst : (c.tasks t).stack = a :: below)
    (he : CellEffect c.world w (c.tasks t).view a.key ⟨t, below.length⟩ a.pc a'.pc)
    (hkey : a'.key = a.key) {i : ViewId} {k : DynKey} {started : Revision} {o : Owner}
    (hs : w.state i k = .running started o) : (movedTo c t below w a').Owned i k o := by
  cases he with
  | same hw hpc =>
    have hs' : c.world.state i k = .running started o := by
      rw [← hs]; simp only [World.state, hw]
    exact (hc.owned i k _ o hs').moved hst hkey fun _ _ => hpc.owns
  | started rev hw hpc hp =>
    subst hw
    rw [World.state_setCell] at hs
    by_cases hcell : i = (c.tasks t).view ∧ k = a.key
    · rw [if_pos hcell] at hs
      cases hs
      obtain ⟨rfl, rfl⟩ := hcell
      refine ⟨a'.pc, ?_, hpc⟩
      rw [active_moved hst, if_pos ⟨rfl, rfl⟩]
      exact ⟨rfl, hkey, rfl⟩
    · rw [if_neg hcell] at hs
      exact (hc.owned i k _ o hs).moved hst hkey fun hv hk => absurd ⟨hv.symm, hk.symm⟩ hcell
  | reset hw hpc =>
    subst hw
    rw [World.state_setCell] at hs
    by_cases hcell : i = (c.tasks t).view ∧ k = a.key
    · rw [if_pos hcell] at hs
      cases hs
    · rw [if_neg hcell] at hs
      exact (hc.owned i k _ o hs).moved hst hkey fun hv hk => absurd ⟨hv.symm, hk.symm⟩ hcell
  | settled st hw hst' hpc hp =>
    subst hw
    rw [World.state_setCell] at hs
    by_cases hcell : i = (c.tasks t).view ∧ k = a.key
    · rw [if_pos hcell] at hs
      subst hs
      cases hst'
    · rw [if_neg hcell] at hs
      exact (hc.owned i k _ o hs).moved hst hkey fun hv hk => absurd ⟨hv.symm, hk.symm⟩ hcell
  | notified hw howns hminds hp =>
    subst hw
    rw [World.state_notifyCell] at hs
    exact (hc.owned i k _ o hs).moved hst hkey fun _ _ => howns

/-- Who minds the cell of a parked access after a step of the top activation. -/
theorem Control.minded_moved (hc : Control c) (hst : (c.tasks t).stack = a :: below)
    (he : CellEffect c.world w (c.tasks t).view a.key ⟨t, below.length⟩ a.pc a'.pc)
    (hkey : a'.key = a.key) {i : ViewId} {k : DynKey} {t' : TaskId} {d : Nat}
    (hp : (movedTo c t below w a').Parked i k t' d) : (movedTo c t below w a').Minded i k := by
  -- a running cell is minded by its owner
  have hrunning : ∀ started o, w.state i k = .running started o →
      (movedTo c t below w a').Minded i k := by
    intro started o hs
    obtain ⟨pc, hact, hpc⟩ := hc.owned_moved hst he hkey hs
    exact ⟨o.task, o.depth, pc, hact, by show WillNotify (w.state i k) pc; rwa [hs]⟩
  -- the activation that moved minds its own cell
  have hself : (c.tasks t).view = i → a.key = k → WillNotify (w.state i k) a'.pc →
      (movedTo c t below w a').Minded i k := by
    intro hv hk hn
    refine ⟨t, below.length, a'.pc, ?_, hn⟩
    rw [active_moved hst, if_pos ⟨rfl, rfl⟩]
    exact ⟨hv, hkey.trans hk, rfl⟩
  have hold := hp.of_moved hst hkey
  cases he with
  | same hw hpc =>
    have hs : w.state i k = c.world.state i k := by simp only [World.state, hw]
    rcases hold with h | ⟨hv, hk, h⟩
    · rw [hw] at h
      refine (hc.minded i k t' d h).moved hst hkey (fun pc => by rw [hs]; exact id) ?_
      intro hv hk
      subst hv hk
      rw [hs]
      exact hpc.willNotify
    · obtain ⟨started, o, hrun⟩ := hpc.parks _ h
      subst hv hk
      exact hrunning started o (hs.trans hrun)
  | started rev hw hpc hnp =>
    have h := hold.resolve_right fun h => hnp _ h.2.2
    by_cases hcell : i = (c.tasks t).view ∧ k = a.key
    · exact hrunning rev _ (by rw [hw, World.state_setCell, if_pos hcell])
    · have hs : w.state i k = c.world.state i k := by rw [hw, World.state_setCell, if_neg hcell]
      rw [hw, World.epoch_setCell] at h
      exact (hc.minded i k t' d h).moved hst hkey (fun pc => by rw [hs]; exact id)
        fun hv hk => absurd ⟨hv.symm, hk.symm⟩ hcell
  | reset hw hpc =>
    have hnp : ∀ seen, a'.pc ≠ .parked seen := fun seen h => by rw [h] at hpc; cases hpc
    have h := hold.resolve_right fun h => hnp _ h.2.2
    by_cases hcell : i = (c.tasks t).view ∧ k = a.key
    · refine hself hcell.1.symm hcell.2.symm ?_
      rw [hw, World.state_setCell, if_pos hcell]
      show a'.pc.minds
      simp [Pc.minds, hpc]
    · have hs : w.state i k = c.world.state i k := by rw [hw, World.state_setCell, if_neg hcell]
      rw [hw, World.epoch_setCell] at h
      exact (hc.minded i k t' d h).moved hst hkey (fun pc => by rw [hs]; exact id)
        fun hv hk => absurd ⟨hv.symm, hk.symm⟩ hcell
  | settled st hw hst' hpc hnp =>
    have h := hold.resolve_right fun h => hnp _ h.2.2
    rw [hw, World.epoch_setCell] at h
    by_cases hcell : i = (c.tasks t).view ∧ k = a.key
    · have hs : w.state i k = st := by rw [hw, World.state_setCell, if_pos hcell]
      rcases hpc with hpc | ⟨hold', hpc⟩
      · refine hself hcell.1.symm hcell.2.symm ?_
        rw [hs]
        exact (willNotify_settled hst').mpr hpc
      · -- verified again: whoever settled the cell before still notifies
        obtain ⟨rfl, rfl⟩ := hcell
        refine (hc.minded _ _ t' d h).moved hst hkey ?_ ?_
        · intro pc hn
          rw [hs]
          exact (willNotify_settled hst').mpr ((willNotify_settled hold').mp hn)
        · exact fun _ _ hn => absurd ((willNotify_settled hold').mp hn) hpc
    · have hs : w.state i k = c.world.state i k := by rw [hw, World.state_setCell, if_neg hcell]
      exact (hc.minded i k t' d h).moved hst hkey (fun pc => by rw [hs]; exact id)
        fun hv hk => absurd ⟨hv.symm, hk.symm⟩ hcell
  | notified hw howns hminds hnp =>
    have h := hold.resolve_right fun h => hnp _ h.2.2
    have hs : w.state i k = c.world.state i k := by rw [hw, World.state_notifyCell]
    rw [hw, World.epoch_notifyCell] at h
    by_cases hcell : i = (c.tasks t).view ∧ k = a.key
    · -- everyone parked on the cell has been notified
      rw [if_pos hcell] at h
      have := hc.seen i k t' d _ _ h rfl
      omega
    · rw [if_neg hcell] at h
      exact (hc.minded i k t' d h).moved hst hkey (fun pc => by rw [hs]; exact id)
        fun hv hk => absurd ⟨hv.symm, hk.symm⟩ hcell

/-- No notification is taken back. -/
theorem CellEffect.epoch_le {w w' : World V} {view : ViewId} {key : DynKey} {o : Owner}
    {pc pc' : Pc V} (h : CellEffect w w' view key o pc pc') (i : ViewId) (k : DynKey) :
    (w.cell i k).epoch ≤ (w'.cell i k).epoch := by
  cases h with
  | same hw _ => exact Nat.le_of_eq (by rw [hw])
  | started rev hw _ _ => exact Nat.le_of_eq (by rw [hw, World.epoch_setCell])
  | reset hw _ => exact Nat.le_of_eq (by rw [hw, World.epoch_setCell])
  | settled st hw _ _ _ => exact Nat.le_of_eq (by rw [hw, World.epoch_setCell])
  | notified hw _ _ _ =>
    rw [hw, World.epoch_notifyCell]
    split <;> omega

theorem pending_movedTo {t' : TaskId} (hst : (c.tasks t).stack = a :: below)
    (h : (movedTo c t below w a').Pending t') : c.Pending t' := by
  by_cases ht : t' = t
  · exact ht ▸ pending_of_stack hst
  · exact (pending_setTask_ne ht _).mp h

theorem view_movedTo (t' : TaskId) : ((movedTo c t below w a').tasks t').view =
    (c.tasks t').view := by
  unfold movedTo setTask
  by_cases ht : t' = t
  · subst ht; simp
  · simp [Function.update_of_ne ht]

/-- **A step of the top activation keeps the invariant.** -/
theorem Control.moved (hc : Control c) (hst : (c.tasks t).stack = a :: below)
    (he : CellEffect c.world w (c.tasks t).view a.key ⟨t, below.length⟩ a.pc a'.pc)
    (hkey : a'.key = a.key) (hops : a'.pc.OpsOk)
    (hseen : ∀ n, a'.pc.seen = some n → n ≤ (c.world.cell (c.tasks t).view a.key).epoch)
    (hcount : w.viewCount = c.world.viewCount) : Control (movedTo c t below w a') where
  unused t' ht' := by
    have hne : t' ≠ t := by
      rintro rfl
      have := hc.unused t' ht'
      rw [hst] at this
      cases this
    unfold movedTo setTask
    simpa [Function.update_of_ne hne] using hc.unused t' ht'
  inView t' ht' := by
    rw [view_movedTo]
    show (c.tasks t').view < w.viewCount
    rw [hcount]
    exact hc.inView t' (pending_movedTo hst ht')
  ops t' d b hb := by
    rw [act_goto hst] at hb
    by_cases htop : t' = t ∧ d = below.length
    · rw [if_pos htop] at hb
      obtain rfl := Option.some.inj hb
      exact hops
    · rw [if_neg htop] at hb
      exact hc.ops t' d b hb
  waits t' d b b' hb hb' := by
    rw [act_goto hst] at hb hb'
    have hnot : ¬ (t' = t ∧ d = below.length) := by
      -- nothing is above the activation that moved
      rintro ⟨rfl, rfl⟩
      rw [if_neg (by omega)] at hb'
      obtain ⟨above, below', hstack, hlen⟩ := atDepth_eq_some hb'
      have := congrArg List.length (hst.symm.trans hstack)
      simp at this
      omega
    rw [if_neg hnot] at hb
    by_cases htop : t' = t ∧ d + 1 = below.length
    · rw [if_pos htop] at hb'
      obtain rfl := Option.some.inj hb'
      obtain ⟨rfl, hd⟩ := htop
      rw [hkey]
      exact hc.waits t' d b a hb (hd ▸ act_top hst)
    · rw [if_neg htop] at hb'
      exact hc.waits t' d b b' hb hb'
  nodup t' := by
    by_cases ht : t' = t
    · subst ht
      have := hc.nodup t'
      rw [hst] at this
      simpa [movedTo, setTask, hkey] using this
    · simpa [movedTo, setTask, Function.update_of_ne ht] using hc.nodup t'
  seen i k t' d pc n hact hn := by
    rw [active_moved hst] at hact
    by_cases htop : t' = t ∧ d = below.length
    · rw [if_pos htop] at hact
      obtain ⟨rfl, hk, rfl⟩ := hact
      obtain rfl := hkey.symm.trans hk
      exact Nat.le_trans (hseen n hn) (he.epoch_le _ _)
    · rw [if_neg htop] at hact
      exact Nat.le_trans (hc.seen i k t' d pc n hact hn) (he.epoch_le _ _)
  owned i k started o hs := hc.owned_moved hst he hkey hs
  minded i k t' d hp := hc.minded_moved hst he hkey hp

end moved

section nested

open Config

variable {c : Config V} {t : TaskId} {a : Activation V} {below : List (Activation V)}

/-- The configuration with another stack (and result) for task `t`. -/
abbrev withStack (c : Config V) (t : TaskId) (stack : List (Activation V))
    (result : Option (AccessResult V)) : Config V :=
  c.setTask t { c.tasks t with stack, result }

theorem view_withStack (t' : TaskId) {stack : List (Activation V)}
    {result : Option (AccessResult V)} :
    ((withStack c t stack result).tasks t').view = (c.tasks t').view := by
  unfold withStack setTask
  by_cases ht : t' = t
  · subst ht; simp
  · simp [Function.update_of_ne ht]

theorem act_withStack (t' : TaskId) (d : Nat) {stack : List (Activation V)}
    {result : Option (AccessResult V)} :
    (withStack c t stack result).act t' d =
      if t' = t then atDepth stack d else c.act t' d := by
  rw [withStack, act_setTask]

/-- An activation that owes nothing is not the one a cell or a waiter relies on. -/
theorem active_popped (hst : (c.tasks t).stack = a :: below) {result : Option (AccessResult V)}
    {i : ViewId} {k : DynKey} {t' : TaskId} {d : Nat} {pc : Pc V} :
    (withStack c t below result).Active i k t' d pc ↔
      c.Active i k t' d pc ∧ ¬ (t' = t ∧ d = below.length) := by
  unfold Active
  rw [act_withStack, view_withStack]
  by_cases ht : t' = t
  · subst ht
    rw [if_pos rfl]
    unfold act
    rw [hst, atDepth_cons]
    by_cases hd : d = below.length
    · subst hd
      have hnone : atDepth below below.length = none := by
        cases hb : atDepth below below.length with
        | none => rfl
        | some b =>
          obtain ⟨above, below', hstack, hlen⟩ := atDepth_eq_some hb
          have := congrArg List.length hstack
          simp at this
          omega
      simp [hnone]
    · simp [hd]
  · simp [ht]

/-- **An activation that owes nothing can return.** -/
theorem Control.popped (hc : Control c) (hst : (c.tasks t).stack = a :: below)
    (howns : a.pc.owns = false) (hnotifies : a.pc.notifies = false)
    (hminds : a.pc.minds = false) (result : Option (AccessResult V)) :
    Control (withStack c t below result) where
  unused t' ht' := by
    have hne : t' ≠ t := by
      rintro rfl
      have := hc.unused t' ht'
      rw [hst] at this
      cases this
    unfold withStack setTask
    simpa [Function.update_of_ne hne] using hc.unused t' ht'
  inView t' ht' := by
    rw [view_withStack]
    refine hc.inView t' ?_
    by_cases ht : t' = t
    · exact ht ▸ pending_of_stack hst
    · exact (pending_setTask_ne ht _).mp ht'
  ops t' d b hb := by
    have hact : (withStack c t below result).Active _ b.key t' d b.pc := ⟨b, hb, rfl, rfl, rfl⟩
    obtain ⟨⟨b', hb', -, -, hpc⟩, -⟩ := (active_popped hst).mp hact
    exact hpc ▸ hc.ops t' d b' hb'
  waits t' d b b' hb hb' := by
    rw [act_withStack] at hb hb'
    by_cases ht : t' = t
    · subst ht
      rw [if_pos rfl] at hb hb'
      obtain ⟨above, below', hstack, hlen⟩ := atDepth_eq_some hb'
      have hlt : d + 1 < below.length := by
        rw [hstack]; simp; omega
      refine hc.waits t' d b b' ?_ ?_
      · rw [act_eq_below hst (by omega)]; exact hb
      · rw [act_eq_below hst (by omega)]; exact hb'
    · rw [if_neg ht] at hb hb'
      exact hc.waits t' d b b' hb hb'
  nodup t' := by
    by_cases ht : t' = t
    · subst ht
      have := hc.nodup t'
      rw [hst, List.map_cons, List.nodup_cons] at this
      simpa [withStack, setTask] using this.2
    · simpa [withStack, setTask, Function.update_of_ne ht] using hc.nodup t'
  seen i k t' d pc n hact hn := hc.seen i k t' d pc n ((active_popped hst).mp hact).1 hn
  owned i k started o hs := by
    obtain ⟨pc, hact, hpc⟩ := hc.owned i k started o hs
    refine ⟨pc, (active_popped hst).mpr ⟨hact, ?_⟩, hpc⟩
    rintro ⟨ht, hd⟩
    rw [ht, hd] at hact
    obtain ⟨-, -, rfl⟩ := (active_top hst).mp hact
    simp [howns] at hpc
  minded i k t' d hp := by
    obtain ⟨t₂, d₂, pc, hact, hpc⟩ := hc.minded i k t' d ((active_popped hst).mp hp).1
    refine ⟨t₂, d₂, pc, (active_popped hst).mpr ⟨hact, ?_⟩, hpc⟩
    rintro ⟨rfl, rfl⟩
    obtain ⟨-, -, rfl⟩ := (active_top hst).mp hact
    cases hs : c.world.state i k with
    | running started o => rw [hs] at hpc; simp [WillNotify, howns] at hpc
    | vacant => rw [hs] at hpc; simp [WillNotify, hminds] at hpc
    | ready r => rw [hs] at hpc; simp [WillNotify, hnotifies] at hpc
    | poisoned e ver => rw [hs] at hpc; simp [WillNotify, hnotifies] at hpc

/-- The activations once an access to `child` was started on top. -/
theorem active_pushed (hst : (c.tasks t).stack = a :: below) {result : Option (AccessResult V)}
    {child : DynKey} {i : ViewId} {k : DynKey} {t' : TaskId} {d : Nat} {pc : Pc V} :
    (withStack c t (.enter child :: a :: below) result).Active i k t' d pc ↔
      c.Active i k t' d pc ∨
        t' = t ∧ d = below.length + 1 ∧ (c.tasks t).view = i ∧ child = k ∧ .top = pc := by
  unfold Active
  rw [act_withStack, view_withStack]
  by_cases ht : t' = t
  · subst ht
    rw [if_pos rfl]
    unfold act
    rw [hst, atDepth_cons]
    by_cases hd : d = (a :: below).length
    · subst hd
      have hnone : atDepth (a :: below) (a :: below).length = none := by
        cases hb : atDepth (a :: below) (a :: below).length with
        | none => rfl
        | some b =>
          obtain ⟨above, below', hstack, hlen⟩ := atDepth_eq_some hb
          have := congrArg List.length hstack
          simp at this hlen
          omega
      rw [hnone]
      simp [Activation.enter]
    · have hd' : ¬ d = below.length + 1 := by simpa using hd
      rw [if_neg hd]
      simp [hd']
  · simp [ht]

/-- **A nested access can be started**, by an activation that waits for it. -/
theorem Control.pushed (hc : Control c) (hst : (c.tasks t).stack = a :: below) {child : DynKey}
    (hwait : a.pc.waitsFor child) (hnew : child ∉ (a :: below).map (·.key))
    (result : Option (AccessResult V)) :
    Control (withStack c t (.enter child :: a :: below) result) where
  unused t' ht' := by
    have hne : t' ≠ t := by
      rintro rfl
      have := hc.unused t' ht'
      rw [hst] at this
      cases this
    unfold withStack setTask
    simpa [Function.update_of_ne hne] using hc.unused t' ht'
  inView t' ht' := by
    rw [view_withStack]
    refine hc.inView t' ?_
    by_cases ht : t' = t
    · exact ht ▸ pending_of_stack hst
    · exact (pending_setTask_ne ht _).mp ht'
  ops t' d b hb := by
    have hact : (withStack c t (.enter child :: a :: below) result).Active _ b.key t' d b.pc :=
      ⟨b, hb, rfl, rfl, rfl⟩
    rcases (active_pushed hst).mp hact with ⟨b', hb', -, -, hpc⟩ | ⟨-, -, -, -, hpc⟩
    · exact hpc ▸ hc.ops t' d b' hb'
    · exact hpc ▸ trivial
  waits t' d b b' hb hb' := by
    rw [act_withStack] at hb hb'
    by_cases ht : t' = t
    · subst ht
      rw [if_pos rfl, atDepth_cons] at hb hb'
      have hd : d ≠ (a :: below).length := by
        -- nothing is above the new access
        rintro rfl
        rw [if_neg (by omega)] at hb'
        obtain ⟨above, below', hstack, hlen⟩ := atDepth_eq_some hb'
        have := congrArg List.length hstack
        simp at this hlen
        omega
      rw [if_neg hd] at hb
      by_cases hd' : d + 1 = (a :: below).length
      · rw [if_pos hd'] at hb'
        obtain rfl := Option.some.inj hb'
        have hd'' : d = below.length := by simpa using hd'
        rw [atDepth_cons, if_pos hd''] at hb
        obtain rfl := Option.some.inj hb
        exact hwait
      · rw [if_neg hd'] at hb'
        refine hc.waits t' d b b' ?_ ?_
        · unfold act; rw [hst]; exact hb
        · unfold act; rw [hst]; exact hb'
    · rw [if_neg ht] at hb hb'
      exact hc.waits t' d b b' hb hb'
  nodup t' := by
    by_cases ht : t' = t
    · subst ht
      have := hc.nodup t'
      rw [hst] at this
      have hcons := List.nodup_cons.mpr ⟨hnew, this⟩
      simpa [withStack, setTask, Activation.enter] using hcons
    · simpa [withStack, setTask, Function.update_of_ne ht] using hc.nodup t'
  seen i k t' d pc n hact hn := by
    rcases (active_pushed hst).mp hact with h | ⟨-, -, -, -, rfl⟩
    · exact hc.seen i k t' d pc n h hn
    · cases hn
  owned i k started o hs := by
    obtain ⟨pc, hact, hpc⟩ := hc.owned i k started o hs
    exact ⟨pc, (active_pushed hst).mpr (.inl hact), hpc⟩
  minded i k t' d hp := by
    rcases (active_pushed hst).mp hp with h | ⟨-, -, -, -, h⟩
    · obtain ⟨t₂, d₂, pc, hact, hpc⟩ := hc.minded i k t' d h
      exact ⟨t₂, d₂, pc, (active_pushed hst).mpr (.inl hact), hpc⟩
    · cases h

end nested

/-! ## 5. The other labels -/

section others

open Config

variable {c : Config V}

/-- Cells that are left as they are, and new views without running cells, keep the
invariant. -/
theorem Control.framed (hc : Control c) (w : World V) (ms : List (Mutator V))
    (hcell : ∀ i k, w.cell i k = c.world.cell i k ∨
      c.world.viewCount ≤ i ∧ ∀ started o, w.state i k ≠ .running started o)
    (hcount : c.world.viewCount ≤ w.viewCount) :
    Control { c with world := w, mutators := ms } where
  unused := hc.unused
  inView t ht := Nat.lt_of_lt_of_le (hc.inView t ht) hcount
  ops := hc.ops
  waits := hc.waits
  nodup := hc.nodup
  seen i k t d pc n hact hn := by
    rcases hcell i k with h | ⟨h, -⟩
    · show n ≤ (w.cell i k).epoch
      rw [h]
      exact hc.seen i k t d pc n hact hn
    · obtain ⟨a, ha, rfl, -⟩ := hact
      exact absurd (hc.inView t (pending_of_act ha)) (Nat.not_lt.mpr h)
  owned i k started o hs := by
    rcases hcell i k with h | ⟨-, h⟩
    · refine hc.owned i k started o ?_
      rw [← hs]
      show (c.world.cell i k).state = (w.cell i k).state
      rw [h]
    · exact absurd hs (h started o)
  minded i k t d hp := by
    rcases hcell i k with h | ⟨h, -⟩
    · have hp' : c.Parked i k t d := by
        unfold Parked at hp ⊢
        rw [← h]
        exact hp
      obtain ⟨t₂, d₂, pc, hact, hpc⟩ := hc.minded i k t d hp'
      refine ⟨t₂, d₂, pc, hact, ?_⟩
      show WillNotify (w.cell i k).state pc
      rw [h]
      exact hpc
    · obtain ⟨a, ha, hv, -⟩ := hp
      have := hc.inView t (pending_of_act ha)
      rw [show (c.tasks t).view = i from hv] at this
      exact absurd this (Nat.not_lt.mpr h)

/-- The activations once a new task has started. -/
theorem active_spawned (hnew : (c.tasks c.taskCount).stack = []) {view : ViewId}
    {key : DynKey} {want : Bool} {i : ViewId} {k : DynKey} {t' : TaskId} {d : Nat} {pc : Pc V} :
    ({ c with
        tasks := Function.update c.tasks c.taskCount ⟨view, key, want, [.enter key], none⟩
        taskCount := c.taskCount + 1 } : Config V).Active i k t' d pc ↔
      c.Active i k t' d pc ∨ t' = c.taskCount ∧ d = 0 ∧ view = i ∧ key = k ∧ .top = pc := by
  unfold Active act
  by_cases ht : t' = c.taskCount
  · subst ht
    have hnone : atDepth (c.tasks c.taskCount).stack d = none := by
      rw [hnew]; rfl
    rw [hnone]
    by_cases hd : d = 0
    · subst hd; simp [Activation.enter]
    · simp [hd]
  · simp [ht]

theorem Control.spawned (hc : Control c) {view : ViewId} {key : DynKey} {want : Bool}
    (hview : view < c.world.viewCount) :
    Control { c with
      tasks := Function.update c.tasks c.taskCount ⟨view, key, want, [.enter key], none⟩
      taskCount := c.taskCount + 1 } where
  unused t' ht' := by
    have hle : c.taskCount + 1 ≤ t' := ht'
    have hne : t' ≠ c.taskCount := by omega
    show ((Function.update c.tasks c.taskCount _) t').stack = []
    rw [Function.update_of_ne hne]
    exact hc.unused t' (by omega)
  inView t' ht' := by
    show ((Function.update c.tasks c.taskCount _) t').view < _
    by_cases ht : t' = c.taskCount
    · subst ht; simpa using hview
    · rw [Function.update_of_ne ht]
      refine hc.inView t' ?_
      unfold Pending at ht' ⊢
      simpa [Function.update_of_ne ht] using ht'
  ops t' d b hb := by
    rcases (active_spawned (hc.unused _ (Nat.le_refl _))).mp ⟨b, hb, rfl, rfl, rfl⟩ with
      ⟨b', hb', -, -, hpc⟩ | h
    · exact hpc ▸ hc.ops t' d b' hb'
    · exact h.2.2.2.2 ▸ trivial
  waits t' d b b' hb hb' := by
    by_cases ht : t' = c.taskCount
    · subst ht
      simp only [act, Function.update_self, atDepth_cons, atDepth_nil] at hb'
      simp at hb'
    · simp only [act, Function.update_of_ne ht] at hb hb'
      exact hc.waits t' d b b' hb hb'
  nodup t' := by
    by_cases ht : t' = c.taskCount
    · subst ht; simp
    · simpa [Function.update_of_ne ht] using hc.nodup t'
  seen i k t' d pc n hact hn := by
    rcases (active_spawned (hc.unused _ (Nat.le_refl _))).mp hact with h | ⟨-, -, -, -, rfl⟩
    · exact hc.seen i k t' d pc n h hn
    · cases hn
  owned i k started o hs := by
    obtain ⟨pc, hact, hpc⟩ := hc.owned i k started o hs
    exact ⟨pc, (active_spawned (hc.unused _ (Nat.le_refl _))).mpr (.inl hact), hpc⟩
  minded i k t' d hp := by
    rcases (active_spawned (hc.unused _ (Nat.le_refl _))).mp hp with h | ⟨-, -, -, -, h⟩
    · obtain ⟨t₂, d₂, pc, hact, hpc⟩ := hc.minded i k t' d h
      exact ⟨t₂, d₂, pc, (active_spawned (hc.unused _ (Nat.le_refl _))).mpr (.inl hact), hpc⟩
    · cases h

/-- Nobody relies on the future of task `t`: none of its accesses has put its cell in state
running and not replaced that state, and none of them is to end or start the computation for a
vacant cell on which an access of another task is parked. -/
structure Config.Droppable (c : Config V) (t : TaskId) : Prop where
  owner : ∀ i k started o, c.world.state i k = .running started o → o.task ≠ t
  minder : ∀ i k d pc, c.Active i k t d pc → pc.minds → c.world.state i k = .vacant →
    ∀ t' d', c.Parked i k t' d' → t' = t

/-- A task whose accesses mind no cell can be dropped. -/
theorem Control.droppable {c : Config V} (hc : Control c) {t : TaskId}
    (h : ∀ a ∈ (c.tasks t).stack, a.pc.minds = false) : c.Droppable t where
  owner i k started o hs := by
    rintro rfl
    obtain ⟨pc, ⟨a, ha, -, -, rfl⟩, howns⟩ := hc.owned i k started o hs
    have hminds := h a (mem_of_act ha)
    unfold Pc.minds at hminds
    rw [howns] at hminds
    cases hminds
  minder i k d pc := by
    rintro ⟨a, ha, -, -, rfl⟩ hminds
    rw [h a (mem_of_act ha)] at hminds
    cases hminds

theorem cell_cancelGuards (w : World V) (stack : List (Activation V)) (i : ViewId)
    (k : DynKey) : (cancelGuards w stack).cell i k = w.cell i k := by
  induction stack generalizing w with
  | nil => rfl
  | cons a stack ih =>
    unfold cancelGuards
    cases a.guard with
    | none => exact ih w
    | some g => exact ih _

theorem viewCount_cancelGuards (w : World V) (stack : List (Activation V)) :
    (cancelGuards w stack).viewCount = w.viewCount := by
  induction stack generalizing w with
  | nil => rfl
  | cons a stack ih =>
    unfold cancelGuards
    cases a.guard with
    | none => exact ih w
    | some g => exact ih _

/-- A suspended task has no cell settled whose waiters it has not notified. -/
theorem Control.not_notifies_of_awaits (hc : Control c) {t : TaskId} {a : Activation V}
    {below : List (Activation V)} (hst : (c.tasks t).stack = a :: below)
    (hawaits : a.awaits = true) {i : ViewId} {k : DynKey} {d : Nat} {pc : Pc V}
    (hact : c.Active i k t d pc) : pc.notifies = false := by
  obtain ⟨b, hb, -, -, rfl⟩ := hact
  have hb' := hb
  unfold act at hb'
  rw [hst, atDepth_cons] at hb'
  by_cases hd : d = below.length
  · rw [if_pos hd] at hb'
    obtain rfl := Option.some.inj hb'
    cases hpc : a.pc with
    | finishing ops =>
      cases ops with
      | nil => rfl
      | cons op ops =>
        cases op with
        | setCell st => simp [Pc.notifies, MicroOp.setsCell]
        | _ => simp [Activation.awaits, hpc] at hawaits
    | _ => rfl
  · rw [if_neg hd] at hb'
    obtain ⟨above, below', hstack, hlen⟩ := atDepth_eq_some hb'
    -- an activation below the top waits for the one above it
    obtain ⟨b₂, hb₂⟩ : ∃ b₂, c.act t (d + 1) = some b₂ := by
      unfold act
      rw [hst]
      refine atDepth_isSome ?_
      rw [hstack]
      simp
      omega
    have hwait := hc.waits t d b b₂ hb hb₂
    cases hpc : b.pc <;> simp_all [Pc.waitsFor, Pc.notifies]

theorem Control.dropped (hc : Control c) {t : TaskId} {c' : Config V}
    (h : dropTask c t = some c') (hdrop : c.Droppable t) : Control c' := by
  unfold dropTask at h
  cases hst : (c.tasks t).stack with
  | nil => simp [hst] at h
  | cons a below =>
    simp only [hst] at h
    by_cases hawaits : a.awaits = true
    · rw [if_pos hawaits] at h
      obtain rfl := Option.some.inj h
      -- the accesses of the other tasks, and only they, are still there
      have hact : ∀ {i k t' d pc}, ({ c with world := cancelGuards c.world (a :: below) }.setTask t
          { c.tasks t with stack := [] }).Active i k t' d pc ↔ c.Active i k t' d pc ∧ t' ≠ t := by
        intro i k t' d pc
        unfold Active
        rw [act_setTask]
        by_cases ht : t' = t
        · simp [ht]
        · simp [ht, setTask, act]
      have hcell := cell_cancelGuards c.world (a :: below)
      have hstate : ∀ i k, (cancelGuards c.world (a :: below)).state i k = c.world.state i k :=
        fun i k => congrArg ErasedCell.state (hcell i k)
      have howned : ∀ i k started o, c.world.state i k = .running started o →
          ({ c with world := cancelGuards c.world (a :: below) }.setTask t
            { c.tasks t with stack := [] }).Owned i k o := by
        intro i k started o hs
        obtain ⟨pc, h, hpc⟩ := hc.owned i k started o hs
        exact ⟨pc, hact.mpr ⟨h, hdrop.owner i k started o hs⟩, hpc⟩
      exact {
        unused := fun t' ht' => by
          by_cases ht : t' = t
          · simp [ht, setTask]
          · simpa [setTask, Function.update_of_ne ht] using hc.unused t' ht'
        inView := fun t' ht' => by
          have ht : t' ≠ t := by
            rintro rfl
            simp [Pending, setTask] at ht'
          have hp := hc.inView t' ((pending_setTask_ne ht _).mp ht')
          simpa [setTask, Function.update_of_ne ht, viewCount_cancelGuards] using hp
        ops := fun t' d b hb => by
          obtain ⟨⟨b', hb', -, -, hpc⟩, -⟩ := hact.mp ⟨b, hb, rfl, rfl, rfl⟩
          exact hpc ▸ hc.ops t' d b' hb'
        waits := fun t' d b b' hb hb' => by
          rw [act_setTask] at hb hb'
          by_cases ht : t' = t
          · simp [ht] at hb
          · rw [if_neg ht] at hb hb'
            exact hc.waits t' d b b' hb hb'
        nodup := fun t' => by
          by_cases ht : t' = t
          · simp [ht, setTask]
          · simpa [setTask, Function.update_of_ne ht] using hc.nodup t'
        seen := fun i k t' d pc n h hn => by
          have := hc.seen i k t' d pc n (hact.mp h).1 hn
          simpa [setTask, hcell] using this
        owned := fun i k started o hs => howned i k started o (hstate i k ▸ hs)
        minded := fun i k t' d hp => by
          unfold Parked at hp
          rw [hact] at hp
          obtain ⟨hp, ht'⟩ := hp
          have hp' : c.Parked i k t' d := by
            unfold Parked
            rw [← hcell i k]
            exact hp
          obtain ⟨t₂, d₂, pc, h₂, hpc⟩ := hc.minded i k t' d hp'
          by_cases ht₂ : t₂ = t
          · subst ht₂
            cases hs : c.world.state i k with
            | running started o =>
              obtain ⟨pc, h, hpc⟩ := howned i k started o hs
              refine ⟨_, _, pc, h, ?_⟩
              show WillNotify ((cancelGuards c.world (a :: below)).state i k) pc
              rw [hstate, hs]
              exact hpc
            | vacant =>
              rw [hs] at hpc
              exact absurd (hdrop.minder i k d₂ pc h₂ hpc hs t' d hp') ht'
            | ready r =>
              rw [hs] at hpc
              simp [WillNotify, hc.not_notifies_of_awaits hst hawaits h₂] at hpc
            | poisoned e ver =>
              rw [hs] at hpc
              simp [WillNotify, hc.not_notifies_of_awaits hst hawaits h₂] at hpc
          · refine ⟨t₂, d₂, pc, hact.mpr ⟨h₂, ht₂⟩, ?_⟩
            show WillNotify ((cancelGuards c.world (a :: below)).state i k) pc
            rw [hstate]
            exact hpc }
    · simp [hawaits] at h

end others

theorem SharedFailed.mono {w w' : World V} (hg : w.Grows w') (h : SharedFailed w.log) :
    SharedFailed w'.log := by
  obtain ⟨e, he, h⟩ := h
  exact ⟨e, hg.mem he, h⟩

theorem Config.cell_stepMutator [DecidableEq V] {w w' : World V} {m m' : Mutator V}
    (h : stepMutator w m = some (w', m')) (i : ViewId) (k : DynKey) :
    w'.cell i k = w.cell i k := by
  unfold stepMutator at h
  cases hpc : m.pc with
  | check =>
    simp only [hpc] at h
    split at h <;> (cases h; rfl)
  | bump => simp only [hpc] at h; cases h; exact World.cell_modifyRuntime ..
  | diverge rev => simp only [hpc] at h; cases h; exact World.cell_markDivergent ..
  | store rev => simp only [hpc] at h; cases h; exact World.cell_storeInput ..
  | done rev => simp [hpc] at h

open Config in
/-- A step of a task keeps the invariant. -/
theorem Control.stepped [DecidableEq V] {S : Schema V} {c c' : Config V} {t : TaskId}
    (hc : Control c) (h : TaskStep S c t c') (hclean : ¬ SharedFailed c'.world.log) :
    Control c' := by
  cases h with
  | @goto a a' below w hst ha =>
    obtain ⟨he, hkey, hops⟩ := ha.cellEffect (hc.ops t _ a (act_top hst)) hclean
    refine hc.moved hst he hkey hops (fun n hn => ha.seen (fun m hm => ?_) hn) ha.grows.2
    exact hc.seen _ _ t _ _ m ((active_top hst).mpr ⟨rfl, rfl, rfl⟩) hm
  | @call a a' below w child hst ha =>
    obtain ⟨rfl, hpc, hkey, hops, hwait, hnew⟩ :=
      ha.call_pcOk (c.world.state (c.tasks t).view a.key)
    have hseen : ∀ n, a'.pc.seen = some n →
        n ≤ (c.world.cell (c.tasks t).view a.key).epoch := by
      intro n hn
      cases hp : a'.pc <;> simp_all [Pc.waitsFor, Pc.seen]
    have hmoved := hc.moved hst (.same (fun _ _ => rfl) hpc) hkey hops hseen rfl
    have hst' : ((movedTo c t below c.world a').tasks t).stack = a' :: below := by
      simp [movedTo, setTask]
    have := hmoved.pushed hst' hwait (by rwa [List.map_cons, hkey]) (c.tasks t).result
    simpa [withStack, movedTo, setTask] using this
  | @ret a w r hst ha =>
    obtain ⟨rfl, howns, hnotifies, hminds⟩ := ha.ret_owes (hc.ops t _ a (act_top hst))
    exact hc.popped hst howns hnotifies hminds (some r)
  | @resume a p p' below w w' r hst ha hp =>
    obtain ⟨rfl, howns, hnotifies, hminds⟩ := ha.ret_owes (hc.ops t _ a (act_top hst))
    have hwait : p.pc.waitsFor a.key := by
      refine hc.waits t below.length p a ?_ (act_top hst)
      rw [act_eq_below hst (by simp)]
      simp
    have hpopped := hc.popped hst howns hnotifies hminds (c.tasks t).result
    have hst' : ((withStack c t (p :: below) (c.tasks t).result).tasks t).stack = p :: below := by
      simp [withStack, setTask]
    have hview : ((withStack c t (p :: below) (c.tasks t).result).tasks t).view =
        (c.tasks t).view := view_withStack t
    obtain ⟨hpc, hkey, hops⟩ := hp.pcOk hwait hclean (c.world.state (c.tasks t).view p.key)
    have hmoved : Control (movedTo (withStack c t (p :: below) (c.tasks t).result) t below w' p') :=
      hpopped.moved hst' (.same hp.same.cell (by rw [hview]; exact hpc)) hkey hops
      (fun n hn => by simp [hp.seen hwait] at hn) hp.same.viewCount
    simpa [withStack, movedTo, setTask] using hmoved

open Config in
/-- **Every step keeps the control invariant**, unless a shared revalidation fails in it or it
drops a future somebody relies on. -/
theorem control_step [DecidableEq V] {S : Schema V} {c c' : Config V} {l : Label V}
    (hc : Control c) (h : step S c l = some c') (hclean : ¬ SharedFailed c'.world.log)
    (hdrop : ∀ t, l = .drop t → c.Droppable t) : Control c' := by
  cases l with
  | spawn view key want =>
    simp only [step] at h
    split at h
    · next hview => cases h; exact hc.spawned hview.1
    · cases h
  | step t => exact hc.stepped (taskStep_of_step h) hclean
  | drop t => exact hc.dropped h (hdrop t rfl)
  | mutate view key value =>
    simp only [step] at h
    split at h
    · cases h
      refine hc.framed _ _ (fun i k => .inl ?_) (grows_mutateWorld ..).viewCount
      unfold mutateWorld
      split
      · rfl
      · simp
    · cases h
  | begin view key value =>
    simp only [step] at h
    split at h
    · cases h; exact hc.framed _ _ (fun i k => .inl rfl) (Nat.le_refl _)
    · cases h
  | advance m =>
    simp only [step] at h
    split at h
    · cases h
    · split at h
      · cases h
      · next hm =>
        cases h
        exact hc.framed _ _ (fun i k => .inl (cell_stepMutator hm i k))
          (grows_stepMutator hm).viewCount
  | intern kind value => cases h; exact hc.framed _ _ (fun i k => .inl rfl) (Nat.le_refl _)
  | bump view =>
    simp only [step] at h
    split at h
    · cases h
      exact hc.framed _ _ (fun i k => .inl (World.cell_modifyRuntime ..)) (Nat.le_refl _)
    · cases h
  | snapshot =>
    cases h
    refine hc.framed _ _ (fun i k => ?_) (Nat.le_succ _)
    rw [World.cell_snapshot]
    by_cases hi : i = c.world.viewCount
    · rw [if_pos hi]
      refine .inr ⟨Nat.le_of_eq hi.symm, fun started o hs => ?_⟩
      unfold World.state at hs
      rw [World.cell_snapshot, if_pos hi] at hs
      unfold ErasedCell.snapshot at hs
      split at hs <;> cases hs
    · exact .inl (if_neg hi)

end Picante

/-
# What is stored

Values are stored with their dependencies in cells, in the shared cache and in the entries of the
registry, and an access moves them from one of these to another.  If `Good q v deps` holds of
whatever the computations of `q` end with, it holds of whatever is stored for `q`.

* `World.Stores` -- what is stored for a query is good (`World.Stores.actStep`).
* `Activation.Stores` -- what an access is about to store is good, and what it follows is an entry
  for its own query (`Activation.Stores.goto`).
-/
import Picante.Cutoff.Follow

namespace Picante

open Config

variable {V : Type}

section stores

variable (Good : DynKey → V → List Dep → Prop)

/-- What the operation stores for `q` is good. -/
def MicroOp.Stores (q : DynKey) : MicroOp V → Prop
  | .setCell (.ready r) => Good q r.value r.deps
  | .putShared F => Good q F.value F.deps
  | .setEntry (.done v deps _) => Good q v deps
  | _ => True

/-- A shared record that is revalidated is good. -/
def Source.Stores (q : DynKey) : Source V → Prop
  | .cell .. => True
  | .shared F _ => Good q F.value F.deps

/-- What an access to `q` may store is good, and what it follows was made for `q`. -/
def Pc.Stores (R : Registry V) (q : DynKey) : Pc V → Prop
  | .revalidate src _ | .touching src _ _ => src.Stores Good q
  | .followReset e | .followListen e | .followRead e _ | .followParked e _ => R.MadeFrom 0 e q
  | .finishing ops => ∀ op ∈ ops, op.Stores Good q
  | _ => True

structure Activation.Stores (R : Registry V) (a : Activation V) : Prop where
  pc : a.pc.Stores Good R a.key
  guard : ∀ g, a.guard = some g → R.MadeFrom 0 g.entry a.key

structure World.Stores (w : World V) : Prop where
  cells : ∀ i q r, w.state i q = .ready r → Good q r.value r.deps
  shared : ∀ scope q F, w.shared scope q = some F → Good q F.value F.deps
  registry : w.registry.Carries 0 fun q v deps _ => Good q v deps

end stores

variable {S : Schema V} {Good Good' : DynKey → V → List Dep → Prop} {R R' : Registry V} {q : DynKey}
  {w w' : World V} {view : ViewId} {a a' : Activation V}

/-! ## 1. Growth -/

theorem MicroOp.Stores.imp (himp : ∀ q v deps, Good q v deps → Good' q v deps) {op : MicroOp V}
    (h : op.Stores Good q) : op.Stores Good' q := by
  cases op with
  | setCell st =>
    cases st with
    | ready r => exact himp _ _ _ h
    | _ => trivial
  | putShared F => exact himp _ _ _ h
  | setEntry st =>
    cases st with
    | done v deps ch => exact himp _ _ _ h
    | _ => trivial
  | _ => trivial

theorem Source.Stores.imp (himp : ∀ q v deps, Good q v deps → Good' q v deps) {src : Source V}
    (h : src.Stores Good q) : src.Stores Good' q := by
  cases src with
  | cell deps ch f => trivial
  | shared F prev => exact himp _ _ _ h

theorem Activation.Stores.mono (h : a.Stores Good R)
    (himp : ∀ q v deps, Good q v deps → Good' q v deps) (hR : R.Extends R') : a.Stores Good' R' := by
  refine ⟨?_, fun g hg => (h.guard g hg).mono hR⟩
  have hpc := h.pc
  cases hop : a.pc with
  | revalidate src rest | touching src dep rest =>
    rw [hop] at hpc
    exact Source.Stores.imp himp hpc
  | followReset e | followListen e | followRead e n | followParked e n =>
    rw [hop] at hpc
    exact Registry.MadeFrom.mono hpc hR
  | finishing ops =>
    rw [hop] at hpc
    exact fun op hmem => (hpc op hmem).imp himp
  | _ => trivial

theorem World.Stores.imp (himp : ∀ q v deps, Good q v deps → Good' q v deps) (h : w.Stores Good) :
    w.Stores Good' where
  cells i q r hr := himp _ _ _ (h.cells i q r hr)
  shared scope q F hF := himp _ _ _ (h.shared scope q F hF)
  registry := ⟨h.registry.next, h.registry.filed, fun e he v deps ch hs =>
    himp _ _ _ (h.registry.done e he v deps ch hs)⟩

theorem World.Stores.same (h : w.Stores Good) (hs : w.Same w') : w'.Stores Good where
  cells i q r hr := h.cells i q r ((hs.state i q).symm.trans hr)
  shared scope q F hF := h.shared scope q F (hs.shared ▸ hF)
  registry := hs.registry ▸ h.registry

/-- What is ready was ready before, in some view. -/
theorem World.Stores.framed (h : w.Stores Good)
    (hcells : ∀ i q r, w'.state i q = .ready r → ∃ j, w.state j q = .ready r)
    (hshared : w'.shared = w.shared) (hregistry : w'.registry = w.registry) :
    w'.Stores Good where
  cells i q r hr := by
    obtain ⟨j, hj⟩ := hcells i q r hr
    exact h.cells j q r hj
  shared scope q F hF := h.shared scope q F (hshared ▸ hF)
  registry := hregistry ▸ h.registry

/-- A change of an input leaves cells and records alone. -/
theorem World.Stores.mutate [DecidableEq V] (h : w.Stores Good) (k : DynKey) (value : Option V) :
    (mutateWorld w view k value).Stores Good := by
  unfold mutateWorld
  split
  · exact h
  · exact h.framed (fun i q r hr => ⟨i, by simpa [World.state] using hr⟩) rfl rfl

theorem World.Stores.snapshot (h : w.Stores Good) : w.snapshot.Stores Good := by
  refine h.framed (fun i q r hr => ?_) rfl rfl
  rw [World.state_snapshot] at hr
  split at hr
  · exact ⟨0, ErasedCell.ready_of_snapshot hr⟩
  · exact ⟨i, hr⟩

theorem World.Stores.bump (h : w.Stores Good) (i : ViewId) :
    (w.modifyRuntime i (·.bumpRevision)).Stores Good :=
  h.framed (fun j q r hr => ⟨j, by simpa using hr⟩) rfl rfl

theorem stores_init : (World.init : World V).Stores Good where
  cells _ _ _ h := by cases h
  shared _ _ _ h := by cases h
  registry :=
    { next := Nat.le_refl _
      filed := fun _ _ h => by cases h
      done := fun _ _ _ _ _ h => by cases h }

/-! ## 2. Steps -/

theorem stores_afterRevalidation {src : Source V} {rev : Revision} (h : src.Stores Good q)
    (b : Bool) : (afterRevalidation view rev src b).Stores Good R q := by
  cases src with
  | cell deps ch f => cases b <;> trivial
  | shared F prev =>
    cases b with
    | true =>
      have hF : Good q F.value F.deps := h
      simpa [afterRevalidation, Pc.Stores, adoptOps, MicroOp.Stores] using hF
    | false => trivial

theorem stores_finalizeOps [DecidableEq V] {rev : Revision} {prev : Previous V} {deps : List Dep}
    {out : PicanteResult V} (h : ∀ v, out = .ok v → Good q v deps) :
    ∀ op ∈ finalizeOps view rev prev deps out, op.Stores Good q := by
  cases out with
  | ok v => simpa [finalizeOps, MicroOp.Stores] using h v rfl
  | error e => simp [finalizeOps, MicroOp.Stores]

theorem Touched.stores {src : Source V} {rest : List Dep} {r : PicanteResult Revision}
    (ht : Touched w view a src rest r w' a') (h : src.Stores Good a.key) :
    a'.pc.Stores Good R a'.key := by
  cases ht with
  | unchanged _ => exact h
  | changed _ => exact stores_afterRevalidation h false
  | failed => simp [Activation.moveTo, Pc.Stores, MicroOp.Stores]

section step

variable [DecidableEq V] {task : TaskId} {below : List (Activation V)}

/-- **What is stored after a step**, and what becomes of the registry. -/
theorem World.Stores.actStep (h : w.Stores Good) (ha : a.Stores Good w.registry)
    (hstep : ActStep S w view task below a w' (.goto a')) :
    w'.Stores Good ∧ w.registry.Extends w'.registry := by
  have hpc := ha.pc
  obtain ⟨hregistry, hext⟩ := h.registry.actStep (a := a) (fun v deps ch ops g hops hg => by
    rw [hops] at hpc
    have hop : (MicroOp.setEntry (.done v deps ch)).Stores Good a.key :=
      hpc _ (List.mem_cons_self ..)
    rw [(ha.guard g hg).2.2]
    exact hop) hstep
  refine ⟨⟨fun i q r hr => ?_, fun scope q F hF => ?_, hregistry⟩, hext⟩
  · by_cases hk : i = view ∧ q = a.key
    · obtain ⟨rfl, rfl⟩ := hk
      rcases hstep.cellStep with hs | hs | ⟨started, o, hs⟩ | ⟨r₀, -, hs₀, hs⟩ | ⟨st, ops, hops, hs⟩
      · exact h.cells i _ r (hs.symm.trans hr)
      · cases hs.symm.trans hr
      · cases hs.symm.trans hr
      · cases hs.symm.trans hr
        exact h.cells i _ r₀ hs₀
      · obtain rfl := hs.symm.trans hr
        rw [hops] at hpc
        exact hpc _ (List.mem_cons_self ..)
    · have hs : w'.state i q = w.state i q := congrArg ErasedCell.state (hstep.cell_other hk)
      exact h.cells i q r (hs.symm.trans hr)
  · cases hstep with
    | touchInput _ _ ht | touchInterned _ _ _ ht =>
      rw [ht.same.shared] at hF
      exact h.shared scope q F hF
    | sharedMiss _ hlook _ =>
      rcases hlook with rfl | rfl
      · exact h.shared scope q F hF
      · have hF' := (World.shared_evictShared ..).symm.trans hF
        split at hF'
        · cases hF'
        · exact h.shared scope q F hF'
    | putShared hops =>
      rw [hops] at hpc
      rw [World.shared_putShared] at hF
      split at hF
      · next heq =>
        obtain rfl := Option.some.inj hF
        rw [heq.2]
        exact hpc _ (List.mem_cons_self ..)
      · exact h.shared scope q F hF
    | _ => exact h.shared scope q F hF

/-- **What an access may store after a step**, if what a computation ends with is good. -/
theorem Activation.Stores.goto (h : w.Stores Good) (ha : a.Stores Good w.registry)
    (hstep : ActStep S w view task below a w' (.goto a'))
    (hfinal : ∀ prev v deps, a.pc = .computing prev (.done (.ok v)) deps → Good a.key v deps) :
    a'.Stores Good w'.registry := by
  have hext := (h.actStep ha hstep).2
  have hpcOk := ha.pc
  constructor
  · cases hstep with
    | stale _ hs _ => trivial
    | sharedStale _ hs _ => exact h.shared _ _ _ hs
    | sharedHit _ hs _ =>
      simpa [Activation.moveTo, Pc.Stores, adoptOps, MicroOp.Stores] using h.shared _ _ _ hs
    | accept hpc =>
      rw [hpc] at hpcOk
      exact stores_afterRevalidation hpcOk true
    | unregistered hpc _ =>
      rw [hpc] at hpcOk
      exact stores_afterRevalidation hpcOk false
    | touchInput hpc _ ht | touchInterned hpc _ _ ht =>
      rw [hpc] at hpcOk
      exact ht.stores hpcOk
    | follow hpc hf => exact h.registry.filed _ _ hf
    | followReset hpc | followListen hpc | followPark hpc | followWake hpc =>
      rw [hpc] at hpcOk
      exact hpcOk
    | followDone hpc hs =>
      rw [hpc] at hpcOk
      have hdone := h.registry.done _ (Nat.zero_le _) _ _ _ hs
      rw [hpcOk.2.2] at hdone
      simpa [Activation.moveTo, Pc.Stores, followOps, MicroOp.Stores] using hdone
    | finalize hpc => exact stores_finalizeOps fun v hv => hfinal _ v _ (hv ▸ hpc)
    | updateDeps hpc | setCell hpc | notifyCell hpc | putShared hpc | setEntry hpc _
    | notifyEntry hpc _ | unregister hpc _ | unguarded hpc _ _ =>
      rw [hpc] at hpcOk
      exact fun op hop => hpcOk op (List.mem_cons_of_mem _ hop)
    | hit _ _ _ | poison _ _ | touchMissing _ _ _ | touchCycle _ _ _ | reverify _ _
    | followFailed _ _ =>
      simp [Activation.moveTo, Pc.Stores, followFailedOps, MicroOp.Stores]
    | _ => trivial
  · intro g hg
    cases hstep with
    | lead hpc _ =>
      cases hg
      exact ⟨Nat.zero_le _, Nat.lt_succ_self _, by simp [World.modifyRegistry, Registry.lead]⟩
    | unregister _ _ => cases hg
    | touchInput _ _ ht | touchInterned _ _ _ ht =>
      rw [ht.key]
      exact (ha.guard g (ht.guard.1 ▸ hg)).mono hext
    | _ => exact (ha.guard g hg).mono hext

end step

end Picante

/-
# A step in a period

A step of an access to `q` brings `q` from its stage to one that follows (`Stage.Becomes`), leaves
all other keys where they are (`Period.Frame`), and whatever is known of the access before it is
known of it afterwards (`Activation.Ok.goto`).
-/
import Picante.SingleFlight.Period

namespace Picante

open Config

variable {V : Type} {S : Schema V} {P : Period V} {starts starts' : List DynKey}
  {seen seen' : Seen V} {s s' : Stage V} {t t' : TaskId} {d d' : Nat} {q : DynKey}
  {w w' : World V}

/-! ## 1. Stages -/

/-- An access has started, once a cell is not kept as it was found. -/
theorem Stage.Holds.startable (h : s.Holds S P starts seen w q) (hs : s ≠ .kept) :
    P.Startable S seen q := by
  cases s with
  | kept => exact absurd rfl hs
  | working t d p => exact h.1
  | decided r => exact h.1
  | following e => exact h.1

/-- A stage is about the cell of the key, its shared record, its entry and its starts. -/
theorem Stage.Holds.congr (h : s.Holds S P starts seen w q)
    (hstate : w'.state P.view q = w.state P.view q)
    (hshared : w'.shared P.scope q = w.shared P.scope q)
    (hfiled : w'.registry.filed (P.inFlight q) = w.registry.filed (P.inFlight q))
    (hstarts : q ∈ starts' ↔ q ∈ starts) : s.Holds S P starts' seen w' q := by
  cases s with
  | kept =>
    unfold Holds Period.Fresh at h ⊢
    rwa [hstate, hfiled, hstarts]
  | working t d p =>
    unfold Holds at h ⊢
    rw [hstate]
    refine ⟨h.1, h.2.1, ?_⟩
    have hp := h.2.2
    cases p with
    | looking | checking F | missed =>
      unfold Progress.Holds at hp ⊢
      simpa only [Period.Fresh, hfiled, hstarts, hshared] using hp
    | computing => trivial
  | decided r =>
    unfold Holds at h ⊢
    rwa [hstate]
  | following e =>
    unfold Holds at h ⊢
    rwa [hstate, hfiled, hstarts, hshared]

theorem Stage.Holds.same (h : s.Holds S P starts seen w q) (hw : w.Same w') :
    s.Holds S P starts seen w' q :=
  h.congr (hw.state ..) (by rw [hw.shared]) (by rw [hw.registry]) Iff.rfl

theorem Period.Refused.mono (hseen : seen ⊆ seen') {F : SharedCacheRecord V}
    (h : P.Refused S seen F) : P.Refused S seen' F :=
  ⟨h.1, h.2.mono hseen⟩

theorem Stage.Holds.mono (hseen : seen ⊆ seen') (h : s.Holds S P starts seen w q) :
    s.Holds S P starts seen' w q := by
  cases s with
  | kept =>
    obtain ⟨hfresh, hcell⟩ := h
    refine ⟨hfresh, hcell.imp_right ?_⟩
    rintro ⟨x, hx, hj, hst⟩
    exact ⟨x, hx, hj.mono hseen, hst⟩
  | working t d p =>
    obtain ⟨hstart, hrun, hp⟩ := h
    refine ⟨hstart.mono hseen, hrun, ?_⟩
    cases p with
    | looking | checking F | computing => exact hp
    | missed => exact ⟨hp.1, fun F hF => (hp.2 F hF).mono hseen⟩
  | decided r => exact ⟨h.1.mono hseen, h.2⟩
  | following e =>
    obtain ⟨hstart, hfiled, he, hcell, hshared⟩ := h
    exact ⟨hstart.mono hseen, hfiled, he, hcell, fun F hF =>
      (hshared F hF).imp_left (·.mono hseen)⟩

theorem Stage.Fate.mono (hseen : seen ⊆ seen') {r : AccessResult V}
    (h : s.Fate S P seen q r) : s.Fate S P seen' q r := by
  cases s with
  | kept => exact Period.Kept.mono hseen h
  | working t d p => exact h.elim
  | decided r' => exact h
  | following e => exact h

/-- **A key has one fate.** -/
theorem Stage.Fate.functional (hagree : seen.Agree) {r r' : AccessResult V}
    (h : s.Fate S P seen q r) (h' : s.Fate S P seen q r') : r = r' := by
  cases s with
  | kept => exact Period.Kept.functional hagree h h'
  | working t d p => exact h.elim
  | decided r'' => exact Eq.trans h (Eq.symm h')
  | following e => exact Period.Outcome.functional h h'

/-- What a cell gives is the fate of its key. -/
theorem Stage.Holds.fate (h : s.Holds S P starts seen w q) {r : AccessResult V}
    (hr : (w.state P.view q).Settles P.rev r) : s.Fate S P seen q r := by
  have hnot : ¬ (w.state P.view q).IsRunning := by
    rintro ⟨started, o, hst⟩
    rw [hst] at hr
    exact hr
  cases s with
  | kept =>
    rcases h.2 with hst | ⟨x, hx, hj, hst⟩
    · rw [hst] at hr
      exact .settled hr
    · rw [hst] at hr
      obtain ⟨-, rfl⟩ := hr
      exact Period.Kept.accepted (x := x) hx hj
  | working t d p => exact absurd h.2.1 hnot
  | decided r' => exact hr.functional (h.2.resolve_left hnot)
  | following e =>
    obtain ⟨-, -, -, hcell, -⟩ := h
    rcases hcell with hst | hrun | ⟨r', hr', hst⟩
    · rw [hst] at hr
      exact hr.elim
    · exact absurd hrun hnot
    · exact hr.functional hst ▸ hr'

/-- A record of an earlier revision is the one that was found. -/
theorem Stage.Holds.stale (h : s.Holds S P starts seen w q) {x : ReadyRecord V}
    (hx : w.state P.view q = .ready x) (hver : x.verifiedAt ≠ P.rev) :
    s = .kept ∧ P.Stale q x := by
  cases s with
  | kept =>
    rcases h.2 with hst | ⟨y, hy, hj, hst⟩
    · exact ⟨rfl, hst.symm.trans hx, hver⟩
    · cases hst.symm.trans hx
      exact absurd rfl hver
  | working t d p =>
    obtain ⟨started, o, hst⟩ := h.2.1
    cases hst.symm.trans hx
  | decided r =>
    rcases h.2 with ⟨started, o, hst⟩ | hst
    · cases hst.symm.trans hx
    · rw [hx] at hst
      exact absurd hst.1 hver
  | following e =>
    obtain ⟨-, -, -, hcell, -⟩ := h
    rcases hcell with hst | ⟨started, o, hst⟩ | ⟨r, hr, hst⟩
    · cases hst.symm.trans hx
    · cases hst.symm.trans hx
    · rw [hx] at hst
      exact absurd hst.1 hver

/-- A cell without a record, or with an earlier error, is one to start on. -/
theorem Stage.Holds.retry (h : s.Holds S P starts seen w q)
    (hst : w.state P.view q = .vacant ∨
      ∃ e ver, w.state P.view q = .poisoned e ver ∧ ver ≠ P.rev) : P.Startable S seen q := by
  cases s with
  | kept =>
    rcases h.2 with hfound | ⟨x, hx, hj, hready⟩
    · rw [hfound] at hst
      rcases hst with hv | ⟨e, ver, hv, hne⟩
      · exact .vacant hv
      · exact .poisoned hv hne
    · rw [hready] at hst
      rcases hst with hv | ⟨e, ver, hv, -⟩ <;> cases hv
  | working t d p => exact h.1
  | decided r => exact h.1
  | following e => exact h.1

/-! ## 2. What an access does to the stage of its key -/

/-- The stages to which the access at depth `d` of task `t` brings a key. -/
inductive Stage.Becomes (S : Schema V) (P : Period V) (seen : Seen V) (t : TaskId) (d : Nat)
    (q : DynKey) : Stage V → Stage V → Prop
  | same {s : Stage V} : Becomes S P seen t d q s s
  | start (h : P.Startable S seen q) : Becomes S P seen t d q .kept (.working t d .looking)
  | goes {p : Progress V} {s : Stage V} : Becomes S P seen t d q (.working t d p) s

/-- The fate of a key stays. -/
theorem Stage.Becomes.fate (hagree : seen.Agree) (h : s.Becomes S P seen t d q s')
    {r : AccessResult V} (hr : s.Fate S P seen q r) : s'.Fate S P seen q r := by
  cases h with
  | same => exact hr
  | start h => exact (h.not_kept hagree hr).elim
  | goes => exact hr.elim

/-- What is known of other accesses is still known. -/
theorem Stage.Becomes.other (hagree : seen.Agree) (h : s.Becomes S P seen t d q s')
    (hne : ¬ (t' = t ∧ d' = d)) {pc : Pc V} (hpc : pc.Ok S P seen s t' d' q) :
    pc.Ok S P seen s' t' d' q := by
  have hsource : ∀ {src : Source V}, src.Ok S P seen s t' d' q → src.Ok S P seen s' t' d' q := by
    intro src hsrc
    cases src with
    | cell deps ch f => exact hsrc
    | shared F prev =>
      cases h with
      | same => exact hsrc
      | start h =>
        rcases hsrc with hs | ⟨e, hs, -⟩ <;> cases hs
      | goes =>
        rcases hsrc with hs | ⟨e, hs, -⟩
        · cases hs
          exact absurd ⟨rfl, rfl⟩ hne
        · cases hs
  cases pc with
  | top | listen | observe seen | parked seen => trivial
  | revalidate src rest => exact ⟨hsource hpc.1, hpc.2⟩
  | touching src dep rest => exact ⟨hsource hpc.1, hpc.2⟩
  | reverify | attempt => exact hpc
  | sharedGet prev | lead prev =>
    cases h with
    | same => exact hpc
    | start h => rcases hpc with hs | ⟨e, hs⟩ <;> cases hs
    | goes =>
      rcases hpc with hs | ⟨e, hs⟩
      · cases hs
        exact absurd ⟨rfl, rfl⟩ hne
      · cases hs
  | followReset e | followListen e | followRead e n | followParked e n =>
    cases h with
    | same => exact hpc
    | start h => cases hpc
    | goes => cases hpc
  | computing prev prog deps | reading prev k f deps =>
    cases h with
    | same => exact hpc
    | start h => cases hpc
    | goes =>
      cases hpc
      exact absurd ⟨rfl, rfl⟩ hne
  | finishing ops =>
    obtain ⟨r, hsays, hstores, hfate⟩ := hpc
    cases h with
    | same => exact ⟨r, hsays, hstores, hfate⟩
    | start h =>
      rcases hfate with hfate | ⟨⟨p, hs⟩, -⟩
      · exact (h.not_kept hagree hfate).elim
      · cases hs
    | goes =>
      rcases hfate with hfate | ⟨⟨p, hs⟩, -⟩
      · exact hfate.elim
      · cases hs
        exact absurd ⟨rfl, rfl⟩ hne

/-- What is known of an access, from more results. -/
theorem Pc.Ok.mono (hseen : seen ⊆ seen') {pc : Pc V} (h : pc.Ok S P seen s t d q) :
    pc.Ok S P seen' s t d q := by
  have hsource : ∀ {src : Source V}, src.Ok S P seen s t d q → src.Ok S P seen' s t d q := by
    intro src hsrc
    cases src with
    | cell deps ch f => exact hsrc
    | shared F prev =>
      refine hsrc.imp_right ?_
      rintro ⟨e, hs, hF⟩
      exact ⟨e, hs, hF.mono hseen⟩
  cases pc with
  | revalidate src rest => exact ⟨hsource h.1, h.2.mono hseen⟩
  | touching src dep rest => exact ⟨hsource h.1, h.2.1.mono hseen, h.2.2⟩
  | reverify =>
    obtain ⟨x, hx, hj⟩ := h
    exact ⟨x, hx, hj.mono hseen⟩
  | attempt => exact Period.Startable.mono hseen h
  | finishing ops =>
    obtain ⟨r, hsays, hstores, hfate⟩ := h
    exact ⟨r, hsays, hstores, hfate.imp_left (·.mono hseen)⟩
  | _ => exact h

/-! ## 3. Revalidations -/

/-- After a step of an access to `q` the key is at a stage that the access has brought it to. -/
def Advances (S : Schema V) (P : Period V) (starts : List DynKey) (seen : Seen V) (t : TaskId)
    (d : Nat) (s : Stage V) (w' : World V) (a' : Activation V) : Prop :=
  ∃ s', s.Becomes S P seen t d a'.key s' ∧ s'.Holds S P starts seen w' a'.key ∧
    a'.Ok S P seen s' t d starts

/-- The access goes on at the same stage. -/
theorem Advances.stay {a' : Activation V} (h : s.Holds S P starts seen w' a'.key)
    (ha : a'.Ok S P seen s t d starts) : Advances S P starts seen t d s w' a' :=
  ⟨s, .same, h, ha⟩

section revalidation

variable {src : Source V}

/-- The operations with which a record is adopted publish one result. -/
theorem says_adoptOps (view : ViewId) (F : SharedCacheRecord V) :
    ∀ op ∈ adoptOps view P.rev F, op.Says P (.ok (F.value, F.changedAt)) := by
  simp [adoptOps, MicroOp.Says, ErasedState.Settles]

/-- A record that is refused is not used. -/
theorem Source.Ok.refused (view : ViewId) (hsrc : src.Ok S P seen s t d q)
    (h : s.Holds S P starts seen w q)
    (hj : P.Judged S seen src.deps src.changedAt (.ok false)) :
    ∃ s', s.Becomes S P seen t d q s' ∧ s'.Holds S P starts seen w q ∧
      (afterRevalidation view P.rev src false).Ok S P seen s' t d q := by
  cases src with
  | cell deps ch f =>
    obtain ⟨x, hx, rfl, rfl⟩ := hsrc
    exact ⟨s, .same, h, .refused hx hj⟩
  | shared F prev =>
    rcases hsrc with rfl | ⟨e, rfl, -⟩
    · obtain ⟨hstart, hrun, hfresh, hF, hver⟩ := h
      refine ⟨.working t d .missed, .goes, ⟨hstart, hrun, hfresh, fun F' hF' => ?_⟩, .inl rfl⟩
      cases hF.symm.trans hF'
      exact ⟨hver, hj⟩
    · exact ⟨.following e, .same, h, .inr ⟨e, rfl⟩⟩

/-- A record that is accepted is marked as verified, or adopted. -/
theorem Source.Ok.accepted (view : ViewId) (hagree : seen.Agree) (hsrc : src.Ok S P seen s t d q)
    (hj : P.Judged S seen src.deps src.changedAt (.ok true)) :
    (afterRevalidation view P.rev src true).Ok S P seen s t d q := by
  cases src with
  | cell deps ch f =>
    obtain ⟨x, hx, rfl, rfl⟩ := hsrc
    exact ⟨x, hx, hj⟩
  | shared F prev =>
    rcases hsrc with rfl | ⟨e, rfl, hF⟩
    · exact ⟨_, says_adoptOps view F, by simp, .inr ⟨⟨_, rfl⟩, trivial⟩⟩
    · cases hj.functional hagree hF.2

/-- The error of a touch is the fate of the key. -/
theorem Source.Ok.failed (hagree : seen.Agree) (hsrc : src.Ok S P seen s t d q)
    (h : s.Holds S P starts seen w q) {e : PicanteError}
    (hj : P.Judged S seen src.deps src.changedAt (.error e)) :
    ∃ s', s.Becomes S P seen t d q s' ∧ s'.Holds S P starts seen w q ∧
      (Pc.finishing [.raise e]).Ok S P seen s' t d q := by
  have hraise : ∀ op ∈ [MicroOp.raise e], op.Says P (.error e : AccessResult V) ∧
      op.stores = false := by
    simp [MicroOp.Says, MicroOp.stores]
  cases src with
  | cell deps ch f =>
    obtain ⟨x, hx, rfl, rfl⟩ := hsrc
    have hs : s = .kept := by
      by_contra hs
      cases (h.startable hs).judged hagree hx hj
    subst hs
    exact ⟨.kept, .same, h, _, fun op hop => (hraise op hop).1, fun _ op hop => (hraise op hop).2,
      .inl (.failed hx hj)⟩
  | shared F prev =>
    rcases hsrc with rfl | ⟨e', rfl, hF⟩
    · exact ⟨.decided (.error e), .goes, ⟨h.1, .inl h.2.1⟩, _, fun op hop => (hraise op hop).1,
        by simp, .inl rfl⟩
    · cases hj.functional hagree hF.2

/-- **A touch that was answered.** -/
theorem Touched.advances {view : ViewId} (hagree : seen.Agree) {a a' : Activation V} {dep : Dep}
    {rest : List Dep} {res : PicanteResult Revision}
    (ht : Touched w view a src rest res w' a') (h : s.Holds S P starts seen w a.key)
    (hrev : a.rev = P.rev)
    (hguard : ∀ g, a.guard = some g →
      g.key = P.inFlight a.key ∧ P.firstEntry ≤ g.entry ∧ a.key ∈ starts)
    (hsrc : src.Ok S P seen s t d a.key)
    (hpassed : P.Passed S seen src.deps src.changedAt (dep :: rest))
    (hreg : S.registered dep.kind = true) (hans : P.Answers S seen dep res) :
    Advances S P starts seen t d s w' a' := by
  have h' := h.same ht.same
  cases ht with
  | unchanged hle => exact .stay h' ⟨fun _ => hrev, hguard, hsrc, hpassed.next hreg hans hle⟩
  | changed hlt =>
    obtain ⟨s', hs', hholds, hpc⟩ := hsrc.refused view h'
      (hpassed.judged (.later hreg hans hlt))
    exact ⟨s', hs', hholds, fun _ => hrev, hguard, hrev ▸ hpc⟩
  | failed =>
    obtain ⟨s', hs', hholds, hpc⟩ := hsrc.failed hagree h' (hpassed.judged (.failed hreg hans))
    exact ⟨s', hs', hholds, fun _ => hrev, hguard, hpc⟩

end revalidation

/-! ## 4. One step -/

section step

variable [DecidableEq V] {a a' : Activation V} {below : List (Activation V)} {m : Move V}

omit [DecidableEq V] in
theorem Period.Keeps.internedAt (hP : P.Keeps w) (k : DynKey) :
    w.internedAt S k = P.start.world.internedAt S k := by
  simp only [World.internedAt, hP.fixed.interned]

/-- A dependency whose kind is not registered is not asked. -/
theorem stepActivation_unregistered {view : ViewId} {src : Source V} {dep : Dep} {rest : List Dep}
    (hpc : a.pc = .revalidate src (dep :: rest)) (hr : S.registered dep.kind = false) :
    stepActivation S w view t below a =
      some ((settle w view a src false).1, .goto (settle w view a src false).2) := by
  simp [stepActivation, hpc, hr]

/-- **What the period leaves as it is.** -/
theorem Period.Keeps.actStep (hP : P.Keeps w) (hguard : ∀ g, a.guard = some g →
    g.key = P.inFlight a.key ∧ P.firstEntry ≤ g.entry ∧ a.key ∈ starts)
    (h : ActStep S w P.view t below a w' m) : P.Keeps w' := by
  have hentry : ∀ {g}, a.guard = some g → ∀ (x : InFlightEntry V) e, e < P.firstEntry →
      (Function.update w.registry.entries g.entry x e).state =
        (P.start.world.registry.entries e).state := by
    intro g hg x e he
    have hne : e ≠ g.entry := Nat.ne_of_lt (Nat.lt_of_lt_of_le he (hguard g hg).2.1)
    rw [Function.update_of_ne hne]
    exact hP.entries e he
  refine ⟨hP.fixed.trans h.fixed, ?_, ?_⟩
  · cases h with
    | lead _ _ =>
      intro e he
      have hne : e ≠ w.registry.nextEntry := Nat.ne_of_lt (Nat.lt_of_lt_of_le he hP.next)
      simpa [World.modifyRegistry, Registry.lead, hne] using hP.entries e he
    | setEntry _ hg | notifyEntry _ hg => exact hentry hg _
    | touchInput _ _ ht | touchInterned _ _ _ ht =>
      rw [ht.same.registry]
      exact hP.entries
    | sharedMiss _ hlook _ => rcases hlook with rfl | rfl <;> exact hP.entries
    | _ => exact hP.entries
  · cases h with
    | lead _ _ => exact Nat.le_succ_of_le hP.next
    | touchInput _ _ ht | touchInterned _ _ _ ht =>
      rw [ht.same.registry]
      exact hP.next
    | sharedMiss _ hlook _ => rcases hlook with rfl | rfl <;> exact hP.next
    | _ => exact hP.next

/-- **Other keys are left alone.** -/
theorem Period.Keeps.frame (hP : P.Keeps w) (ha : a.Ok S P seen s t d starts)
    (h : ActStep S w P.view t below a w' m) : P.Frame a.key w w' := by
  have hscope : w.scope P.view = P.scope := hP.fixed.scope _
  refine ⟨fun k hk => ?_, fun k hk => ?_, fun k hk => ?_⟩
  · exact congrArg ErasedCell.state (h.cell_other fun heq => hk heq.2)
  · cases h with
    | touchInput _ _ ht | touchInterned _ _ _ ht => rw [ht.same.shared]
    | sharedMiss _ hlook _ =>
      rcases hlook with rfl | rfl
      · rfl
      · exact (World.shared_evictShared ..).trans (if_neg fun heq => hk heq.2)
    | putShared _ => exact (World.shared_putShared ..).trans (if_neg fun heq => hk heq.2)
    | _ => rfl
  · cases h with
    | touchInput _ _ ht | touchInterned _ _ _ ht => rw [ht.same.registry]
    | sharedMiss _ hlook _ => rcases hlook with rfl | rfl <;> rfl
    | lead hpc _ =>
      refine Function.update_of_ne (fun heq => hk ?_) ..
      exact congrArg InFlightKey.query heq
    | unregister _ hg =>
      refine Function.update_of_ne (fun heq => hk ?_) ..
      rw [(ha.guard _ hg).1] at heq
      exact congrArg InFlightKey.query heq
    | _ => rfl

/-- What a compute function ends with is published as one result. -/
theorem says_finalizeOps {view : ViewId} {prev : Previous V} {deps : List Dep}
    (out : PicanteResult V) :
    ∃ r, (∀ op ∈ finalizeOps view P.rev prev deps out, op.Says P r) ∧
      Unpublished (finalizeOps view P.rev prev deps out) := by
  cases out with
  | ok v =>
    refine ⟨.ok (v, changedAtOf prev P.rev v), ?_, trivial⟩
    simp [finalizeOps, MicroOp.Says, ErasedState.Settles]
  | error e =>
    refine ⟨.error e, ?_, trivial⟩
    simp [finalizeOps, MicroOp.Says, ErasedState.Settles]

/-- Looking for a leader. -/
theorem Activation.Ok.lead (hP : P.Keeps w) {prev : Previous V} (hpc : a.pc = .lead prev)
    (hstep : stepActivation S w P.view t below a = some (w', .goto a'))
    (hbefore : ∀ e, P.start.world.registry.filed (P.inFlight a.key) = some e → e < P.firstEntry)
    (h : s.Holds S P starts seen w a.key) (ha : a.Ok S P seen s t d starts) :
    Advances S P (starts ++ a.started w P.view) seen t d s w' a' := by
  have hrev : a.rev = P.rev := ha.rev (by simp [hpc])
  have hkey : (⟨w.scope P.view, a.rev, a.key⟩ : InFlightKey) = P.inFlight a.key := by
    rw [hrev, hP.fixed.scope]
    rfl
  have hok := ha.pc
  rw [hpc] at hok
  simp only [stepActivation, hpc, hkey] at hstep
  cases hf : w.registry.filed (P.inFlight a.key) with
  | some e =>
    have hstarted : a.started w P.view = [] := by simp [Activation.started, hpc, hkey, hf]
    rw [hstarted, List.append_nil]
    simp only [hf, Option.some.injEq, Prod.mk.injEq, Move.goto.injEq] at hstep
    obtain ⟨rfl, rfl⟩ := hstep
    rcases hok with rfl | ⟨e', rfl⟩
    · obtain ⟨hstart, hrun, ⟨hfresh, hfiled⟩, hF⟩ := h
      exact ⟨.following e, .goes, ⟨hstart, ⟨hfresh, hf⟩, hbefore e (hfiled ▸ hf),
        .inr (.inl hrun), fun F hF' => .inl (hF F hF')⟩, fun _ => hrev, ha.guard, rfl⟩
    · cases h.2.1.2.symm.trans hf
      exact .stay h ⟨fun _ => hrev, ha.guard, rfl⟩
  | none =>
    have hstarted : a.started w P.view = [a.key] := by
      simp [Activation.started, hpc, hkey, hf]
    rw [hstarted]
    simp only [hf, Option.some.injEq, Prod.mk.injEq, Move.goto.injEq] at hstep
    obtain ⟨rfl, rfl⟩ := hstep
    rcases hok with rfl | ⟨e', rfl⟩
    · obtain ⟨hstart, hrun, -⟩ := h
      refine ⟨.working t d .computing, .goes, ⟨hstart, hrun, trivial⟩, fun _ => hrev, ?_, rfl⟩
      intro g hg
      cases hg
      exact ⟨rfl, hP.next, List.mem_append_right _ (List.mem_singleton_self _)⟩
    · cases h.2.1.2.symm.trans hf

omit [DecidableEq V] in
/-- The rest of a straight-line part, unless the operation stores the result in the cell. -/
theorem Pc.Ok.tail {op : MicroOp V} {ops : List (MicroOp V)}
    (h : (Pc.finishing (op :: ops)).Ok S P seen s t d q) (hop : ∀ st, op ≠ .setCell st) :
    (Pc.finishing ops).Ok S P seen s t d q := by
  obtain ⟨r, hsays, hstores, hfate⟩ := h
  refine ⟨r, fun o ho => hsays o (List.mem_cons_of_mem _ ho),
    fun hs o ho => hstores hs o (List.mem_cons_of_mem _ ho), hfate.imp_right ?_⟩
  rintro ⟨hs, hun⟩
  refine ⟨hs, ?_⟩
  cases op with
  | setCell st => exact absurd rfl (hop st)
  | updateDeps deps =>
    cases ops with
    | nil => exact hun.elim
    | cons o ops =>
      cases o with
      | setCell st => trivial
      | _ => exact hun.elim
  | _ => exact hun.elim

omit [DecidableEq V] in
/-- **A result is stored in the cell.** -/
theorem Activation.Ok.setCell {st : ErasedState V} {ops : List (MicroOp V)}
    (hpc : a.pc = .finishing (.setCell st :: ops)) (h : s.Holds S P starts seen w a.key)
    (ha : a.Ok S P seen s t d starts) :
    Advances S P starts seen t d s (w.setCell P.view a.key st) (a.moveTo (.finishing ops)) := by
  have hrev : a.rev = P.rev := ha.rev (by simp [hpc])
  have hok := ha.pc
  rw [hpc] at hok
  obtain ⟨r, hsays, hstores, hfate⟩ := hok
  obtain ⟨hst, hsays⟩ := List.forall_mem_cons.mp hsays
  have hset : (w.setCell P.view a.key st).state P.view a.key = st := World.state_setCell_self ..
  have hst' : ((w.setCell P.view a.key st).state P.view a.key).Settles P.rev r := by
    rw [hset]
    exact hst
  rcases hfate with hfate | ⟨⟨p, rfl⟩, -⟩
  · refine ⟨s, .same, ?_, fun _ => hrev, ha.guard, r, hsays,
      fun hs o ho => hstores hs o (List.mem_cons_of_mem _ ho), .inl hfate⟩
    cases s with
    | kept => cases hstores rfl _ (List.mem_cons_self ..)
    | working t' d' p => exact hfate.elim
    | decided r' =>
      obtain rfl : r = r' := hfate
      exact ⟨h.1, .inr hst'⟩
    | following e => exact ⟨h.1, h.2.1, h.2.2.1, .inr (.inr ⟨r, hfate, hst'⟩), h.2.2.2.2⟩
  · exact ⟨.decided r, .goes, ⟨h.1, .inr hst'⟩, fun _ => hrev, ha.guard, r, hsays, by simp, .inl rfl⟩

omit [DecidableEq V] in
/-- A result is stored in the shared cache. -/
theorem Activation.Ok.putShared (hscope : w.scope P.view = P.scope) {F : SharedCacheRecord V}
    {ops : List (MicroOp V)} (hpc : a.pc = .finishing (.putShared F :: ops))
    (h : s.Holds S P starts seen w a.key) (ha : a.Ok S P seen s t d starts) :
    s.Holds S P starts seen (w.putShared (w.scope P.view) a.key F) a.key := by
  have hok := ha.pc
  rw [hpc] at hok
  obtain ⟨r, hsays, hstores, hfate⟩ := hok
  obtain ⟨hver, rfl⟩ := hsays _ (List.mem_cons_self ..)
  rcases hfate with hfate | ⟨-, hun⟩
  · cases s with
    | kept => cases hstores rfl _ (List.mem_cons_self ..)
    | working t' d' p => exact hfate.elim
    | decided r' => exact h
    | following e =>
      refine ⟨h.1, h.2.1, h.2.2.1, h.2.2.2.1, fun F' hF' => ?_⟩
      rw [hscope, World.shared_putShared, if_pos ⟨rfl, rfl⟩] at hF'
      cases hF'
      exact .inr ⟨hver, hfate⟩
  · exact hun.elim

omit [DecidableEq V] in
/-- What an access starts on is neither running nor settled. -/
theorem startable_state {st : ErasedState V} {rev : Revision} {prev : Previous V}
    (h : (∃ r, st = .ready r ∧ r.verifiedAt ≠ rev ∧ prev = some (r.value, r.changedAt)) ∨
      ((st = .vacant ∨ ∃ e ver, st = .poisoned e ver ∧ ver ≠ rev) ∧ prev = none)) :
    ¬ st.IsRunning ∧ ∀ r, ¬ st.Settles rev r := by
  rcases h with ⟨x, rfl, hne, -⟩ | ⟨rfl | ⟨e, ver, rfl, hne⟩, -⟩
  · refine ⟨?_, fun r hr => hne hr.1⟩
    rintro ⟨_, _, hst⟩
    cases hst
  · refine ⟨?_, fun r hr => hr⟩
    rintro ⟨_, _, hst⟩
    cases hst
  · refine ⟨?_, fun r hr => hne hr.1⟩
    rintro ⟨_, _, hst⟩
    cases hst

/-- A refused record. -/
theorem Activation.Ok.unregistered {src : Source V} {dep : Dep} {rest : List Dep}
    (hpc : a.pc = .revalidate src (dep :: rest)) (hr : S.registered dep.kind = false)
    (hstep : stepActivation S w P.view t below a = some (w', .goto a'))
    (h : s.Holds S P starts seen w a.key) (ha : a.Ok S P seen s t d starts) :
    Advances S P starts seen t d s w' a' := by
  rw [stepActivation_unregistered hpc hr] at hstep
  simp only [Option.some.injEq, Prod.mk.injEq, Move.goto.injEq] at hstep
  obtain ⟨rfl, rfl⟩ := hstep
  have hrev : a.rev = P.rev := ha.rev (by simp [hpc])
  have hok := ha.pc
  rw [hpc] at hok
  obtain ⟨s', hs', hholds, hpc'⟩ := hok.1.refused P.view h
    (hok.2.judged (.unknown (by simp [hr])))
  rw [← hrev] at hpc'
  exact ⟨s', hs', hholds.same (.logged w _), fun _ => hrev, ha.guard, hpc'⟩

/-- **A step of an access.** -/
theorem Activation.Ok.goto (hagree : seen.Agree) (hP : P.Keeps w)
    (hstep : stepActivation S w P.view t below a = some (w', .goto a'))
    (hasks : ∀ k, a.asks S = some k → k ∉ (a :: below).map (·.key))
    (hlead : ∀ prev, a.pc ≠ .lead prev)
    (h : s.Holds S P starts seen w a.key) (ha : a.Ok S P seen s t d starts) :
    Advances S P starts seen t d s w' a' := by
  have hrev := ha.rev
  have hok := ha.pc
  have hguard := ha.guard
  have hscope : w.scope P.view = P.scope := hP.fixed.scope _
  by_cases hunreg : ∃ src dep rest, a.pc = .revalidate src (dep :: rest) ∧
      S.registered dep.kind = false
  · obtain ⟨src, dep, rest, hpc, hr⟩ := hunreg
    exact ha.unregistered hpc hr hstep h
  have hreg : ∀ src dep rest, a.pc = .revalidate src (dep :: rest) →
      S.registered dep.kind = true := by
    intro src dep rest hpc
    cases hr : S.registered dep.kind with
    | true => rfl
    | false => exact absurd ⟨src, dep, rest, hpc, hr⟩ hunreg
  have hact : ActStep S w P.view t below a w' (.goto a') := actStep_of_step hstep
  cases hact with
  | top hpc => exact .stay h ⟨fun _ => hP.fixed.rev _, hguard, trivial⟩
  | listen hpc | park hpc _ | wake hpc _ | followCancelled hpc =>
    exact .stay h ⟨fun _ => hrev (by simp [hpc]), hguard, trivial⟩
  | overtaken hpc =>
    exact .stay h ⟨fun hne => absurd rfl hne, hguard, trivial⟩
  | hit hpc hs hr =>
    have hrev' : a.rev = P.rev := hrev (by simp [hpc])
    have hfate := h.fate (r := .ok (_, _)) (by rw [hs]; exact ⟨hr.trans hrev', rfl⟩)
    exact .stay h ⟨fun _ => hrev', hguard, _, by simp [MicroOp.Says], by simp [MicroOp.stores],
      .inl hfate⟩
  | stale hpc hs hr =>
    have hrev' : a.rev = P.rev := hrev (by simp [hpc])
    obtain ⟨rfl, hstale⟩ := h.stale hs (hrev' ▸ hr)
    exact .stay h ⟨fun _ => hrev', hguard, ⟨_, hstale, rfl, rfl⟩, .start⟩
  | poison hpc hs =>
    have hrev' : a.rev = P.rev := hrev (by simp [hpc])
    have hfate := h.fate (r := .error _) (by rw [hs]; exact ⟨hrev', rfl⟩)
    exact .stay h ⟨fun _ => hrev', hguard, _, by simp [MicroOp.Says], by simp [MicroOp.stores],
      .inl hfate⟩
  | retry hpc hs =>
    have hrev' : a.rev = P.rev := hrev (by simp [hpc])
    exact .stay h ⟨fun _ => hrev', hguard, h.retry (hrev' ▸ hs)⟩
  | accept hpc =>
    have hrev' : a.rev = P.rev := hrev (by simp [hpc])
    rw [hpc] at hok
    have hpc' := hok.1.accepted P.view hagree (hok.2.judged .accepted)
    exact .stay (h.same (.logged w _)) ⟨fun _ => hrev', hguard, hrev' ▸ hpc'⟩
  | unregistered hpc hr => exact absurd ⟨_, _, _, hpc, hr⟩ hunreg
  | touchInput hpc hk ht =>
    rw [hpc] at hok
    refine ht.advances hagree h (hrev (by simp [hpc])) hguard hok.1 hok.2
      (hreg _ _ _ hpc) ?_
    rw [hP.fixed.inputs]
    exact .input hk
  | touchInterned hpc hk hv ht =>
    rw [hpc] at hok
    have hv' : P.start.world.internedAt S _ = some _ := (hP.internedAt _).symm.trans hv
    exact ht.advances hagree h (hrev (by simp [hpc])) hguard hok.1 hok.2
      (hreg _ _ _ hpc) (.interned hk hv')
  | touchMissing hpc hk hv =>
    rw [hpc] at hok
    have hv' : P.start.world.internedAt S _ = none := (hP.internedAt _).symm.trans hv
    obtain ⟨s', hs', hholds, hpc'⟩ := hok.1.failed hagree h
      (hok.2.judged (.failed (hreg _ _ _ hpc) (.missing hk hv')))
    exact ⟨s', hs', hholds.same ((World.Same.logged w _).trans (.logged _ _)),
      fun _ => hrev (by simp [hpc]), hguard, hpc'⟩
  | touchCycle hpc hk hc =>
    exact absurd hc (hasks _ (by simp [Activation.asks, hpc, hk, hreg _ _ _ hpc]))
  | @reverify r hpc hs =>
    have hrev' : a.rev = P.rev := hrev (by simp [hpc])
    rw [hpc] at hok
    obtain ⟨x, hx, hj⟩ := hok
    have hkept : s = .kept := by
      by_contra hne
      cases (h.startable hne).judged hagree hx hj
    subst hkept
    -- the record is the one that was found, verified by another access or not
    have heq : r.value = x.value ∧ r.changedAt = x.changedAt ∧
        { r with verifiedAt := P.rev } = { x with verifiedAt := P.rev } := by
      rcases h.2 with hst | ⟨y, hy, -, hst⟩
      · cases hs.symm.trans (hst.trans hx.1)
        exact ⟨rfl, rfl, rfl⟩
      · cases hy.functional hx
        cases hs.symm.trans hst
        exact ⟨rfl, rfl, rfl⟩
    obtain ⟨hvalue, hchanged, heq⟩ := heq
    refine .stay ⟨h.1, .inr ⟨x, hx, hj, ?_⟩⟩ ⟨fun _ => hrev', hguard, .ok (r.value, r.changedAt),
      by simp [MicroOp.Says], by simp [MicroOp.stores], .inl ?_⟩
    · rw [← heq, hrev']
      exact World.state_setCell_self ..
    · rw [hvalue, hchanged]
      exact Period.Kept.accepted hx hj
  | start hpc hs =>
    have hrev' : a.rev = P.rev := hrev (by simp [hpc])
    rw [hpc] at hok
    rw [hrev'] at hs
    have hrun : ((w.setCell P.view a.key (.running a.rev ⟨t, below.length⟩)).state P.view
        a.key).IsRunning := ⟨_, _, World.state_setCell_self ..⟩
    obtain ⟨hidle, hunsettled⟩ := startable_state hs
    cases s with
    | kept => exact ⟨.working t d .looking, .start hok, ⟨hok, hrun, h.1⟩, fun _ => hrev', hguard,
        .inl rfl⟩
    | working t' d' p => exact absurd h.2.1 hidle
    | decided r => exact (h.2.elim hidle (hunsettled r)).elim
    | following e =>
      exact .stay ⟨h.1, h.2.1, h.2.2.1, .inr (.inl hrun), h.2.2.2.2⟩
        ⟨fun _ => hrev', hguard, .inr ⟨e, rfl⟩⟩
  | sharedMiss hpc hw hs =>
    have hrev' : a.rev = P.rev := hrev (by simp [hpc])
    rw [hpc] at hok
    rw [hscope] at hs
    have hstate : w'.state P.view a.key = w.state P.view a.key := by
      rcases hw with rfl | rfl <;> rfl
    have hregistry : w'.registry = w.registry := by rcases hw with rfl | rfl <;> rfl
    have hnone : ∀ F, w'.shared P.scope a.key ≠ some F := by
      intro F hF
      rw [hs] at hF
      cases hF
    rcases hok with rfl | ⟨e, rfl⟩
    · obtain ⟨hstart, hrun, hfresh⟩ := h
      refine ⟨.working t d .missed, .goes, ⟨hstart, ?_, ?_, fun F hF => absurd hF (hnone F)⟩,
        fun _ => hrev', hguard, .inl rfl⟩
      · exact (congrArg ErasedState.IsRunning hstate).mpr hrun
      · exact ⟨hfresh.1, hregistry ▸ hfresh.2⟩
    · refine .stay ⟨h.1, ⟨h.2.1.1, hregistry ▸ h.2.1.2⟩, h.2.2.1, ?_,
        fun F hF => absurd hF (hnone F)⟩ ⟨fun _ => hrev', hguard, .inr ⟨e, rfl⟩⟩
      exact hstate ▸ h.2.2.2.1
  | @sharedHit prev F hpc hs hr =>
    have hrev' : a.rev = P.rev := hrev (by simp [hpc])
    rw [hpc] at hok
    rw [hscope] at hs
    have hsays := says_adoptOps (P := P) P.view F
    rw [← hrev'] at hsays
    have h' : s.Holds S P starts seen { w with lookups := w.lookups + 1 } a.key :=
      h.congr rfl rfl rfl Iff.rfl
    rcases hok with rfl | ⟨e, rfl⟩
    · exact .stay h' ⟨fun _ => hrev', hguard, _, hsays, by simp, .inr ⟨⟨_, rfl⟩, trivial⟩⟩
    · refine .stay h' ⟨fun _ => hrev', hguard, _, hsays, by simp, .inl ?_⟩
      rcases h.2.2.2.2 F hs with hF | hF
      · exact absurd (hr.trans hrev') hF.1
      · exact hF.2
  | @sharedStale prev F hpc hs hr =>
    have hrev' : a.rev = P.rev := hrev (by simp [hpc])
    rw [hpc] at hok
    rw [hscope] at hs
    rcases hok with rfl | ⟨e, rfl⟩
    · obtain ⟨hstart, hrun, hfresh⟩ := h
      exact ⟨.working t d (.checking F), .goes, ⟨hstart, hrun, hfresh, hs, hrev' ▸ hr⟩,
        fun _ => hrev', hguard, .inl rfl, .start⟩
    · refine .stay (h.congr rfl rfl rfl Iff.rfl) ⟨fun _ => hrev', hguard, .inr ⟨e, rfl, ?_⟩, .start⟩
      rcases h.2.2.2.2 F hs with hF | hF
      · exact hF
      · exact absurd (hF.1.trans hrev'.symm) hr
  | follow hpc _ | lead hpc _ => exact absurd hpc (hlead _)
  | @followReset e hpc =>
    rw [hpc] at hok
    obtain rfl : s = .following e := hok
    exact .stay ⟨h.1, h.2.1, h.2.2.1, .inl (World.state_setCell_self ..), h.2.2.2.2⟩
      ⟨fun _ => hrev (by simp [hpc]), hguard, rfl⟩
  | followListen hpc | followPark hpc | followWake hpc =>
    rw [hpc] at hok
    exact .stay h ⟨fun _ => hrev (by simp [hpc]), hguard, hok⟩
  | @followDone e n value deps ch hpc hs =>
    have hrev' : a.rev = P.rev := hrev (by simp [hpc])
    rw [hpc] at hok
    obtain rfl : s = .following e := hok
    rw [hP.entries e h.2.2.1] at hs
    refine .stay h ⟨fun _ => hrev', hguard, .ok (value, ch), ?_, by simp, .inl ?_⟩
    · simp [followOps, MicroOp.Says, ErasedState.Settles, hrev']
    · simp [Stage.Fate, Period.Outcome, hs]
  | @followFailed e n err hpc hs =>
    have hrev' : a.rev = P.rev := hrev (by simp [hpc])
    rw [hpc] at hok
    obtain rfl : s = .following e := hok
    rw [hP.entries e h.2.2.1] at hs
    refine .stay h ⟨fun _ => hrev', hguard, .error err, ?_, by simp, .inl ?_⟩
    · simp [followFailedOps, MicroOp.Says, ErasedState.Settles, hrev']
    · simp [Stage.Fate, Period.Outcome, hs]
  | finalize hpc =>
    have hrev' : a.rev = P.rev := hrev (by simp [hpc])
    rw [hpc] at hok
    obtain rfl : s = .working t d .computing := hok
    obtain ⟨r, hsays, hun⟩ := says_finalizeOps (P := P) _
    rw [← hrev'] at hsays hun
    exact .stay h ⟨fun _ => hrev', hguard, r, hsays, by simp, .inr ⟨⟨_, rfl⟩, hun⟩⟩
  | readInput hpc _ | readInterned hpc _ _ =>
    rw [hpc] at hok
    exact .stay h ⟨fun _ => hrev (by simp [hpc]), hguard, hok⟩
  | readMissing hpc _ _ =>
    rw [hpc] at hok
    exact .stay (h.same (.logged w _)) ⟨fun _ => hrev (by simp [hpc]), hguard, hok⟩
  | readCycle hpc hk hc =>
    exact absurd hc (hasks _ (by simp [Activation.asks, hpc, hk]))
  | updateDeps hpc =>
    rw [hpc] at hok
    exact .stay (h.congr (World.state_modifyRuntime ..) rfl rfl Iff.rfl)
      ⟨fun _ => hrev (by simp [hpc]), hguard, hok.tail (by simp)⟩
  | setCell hpc => exact ha.setCell hpc h
  | notifyCell hpc =>
    rw [hpc] at hok
    exact .stay (h.congr (World.state_notifyCell ..) rfl rfl Iff.rfl)
      ⟨fun _ => hrev (by simp [hpc]), hguard, hok.tail (by simp)⟩
  | putShared hpc =>
    have h' := ha.putShared hscope hpc h
    rw [hpc] at hok
    exact .stay h' ⟨fun _ => hrev (by simp [hpc]), hguard, hok.tail (by simp)⟩
  | setEntry hpc _ | notifyEntry hpc _ =>
    rw [hpc] at hok
    exact .stay (h.congr rfl rfl rfl Iff.rfl)
      ⟨fun _ => hrev (by simp [hpc]), hguard, hok.tail (by simp)⟩
  | unregister hpc hg =>
    rw [hpc] at hok
    have hstarted := (hguard _ hg).2.2
    have hok' := hok.tail (by simp)
    obtain ⟨r, -, -, hfate⟩ := hok
    -- only the key whose result is known has a guard
    refine .stay ?_ ⟨fun _ => hrev (by simp [hpc]), by simp, hok'⟩
    rcases hfate with hfate | ⟨-, hun⟩
    · cases s with
      | kept => exact absurd hstarted h.1.1
      | working t' d' p => exact hfate.elim
      | decided r' => exact h
      | following e => exact absurd hstarted h.2.1.1
    · exact hun.elim
  | unguarded hpc hop _ =>
    rw [hpc] at hok
    refine .stay h ⟨fun _ => hrev (by simp [hpc]), hguard, hok.tail ?_⟩
    rintro st rfl
    rcases hop with ⟨st', hop⟩ | hop | hop <;> cases hop
  | restart hpc hr =>
    exact absurd ((hP.fixed.rev _).trans (hrev (by simp [hpc])).symm) hr

end step

end Picante

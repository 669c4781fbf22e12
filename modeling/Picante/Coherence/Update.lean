/-
# What the updates keep

Every update of the world an access makes, with what it takes to keep the world coherent.  The
updates that store nothing take nothing (`Coherent.quiet`, `Coherent.clear`); a result takes
that it is right at the revision of its view, with an honest stamp.

A result the database stores in one of its cells goes on record as the answer of its key at
that revision (`Past.tell`), so these updates are the ones that change what is remembered.
-/
import Picante.Coherence.World
import Picante.Control

namespace Picante

open ReadProg Stamp

variable {V : Type}

/-! ## 1. Remembering an answer -/

/-- Remembers that `q` was answered by `a` at revision `r`. -/
def Past.tell (p : Past V) (q : DynKey) (r : Revision) (a : PicanteResult (Option V)) : Past V :=
  { p with answer := Function.update p.answer q (Function.update (p.answer q) r (some a)) }

theorem Past.answer_tell (p : Past V) (q q' : DynKey) (r r' : Revision)
    (a : PicanteResult (Option V)) :
    (p.tell q r a).answer q' r' = if q' = q ∧ r' = r then some a else p.answer q' r' := by
  by_cases hq : q' = q
  · subst hq
    by_cases hr : r' = r
    · subst hr; simp [tell]
    · simp [tell, hr]
  · simp [tell, hq]

/-- The worlds agree on everything that is cached, and on what no access changes. -/
structure World.Quiet (w w' : World V) : Prop where
  fixed : w.Fixed w'
  state : ∀ i k, w'.state i k = w.state i k
  shared : w'.shared = w.shared
  registry : w'.registry = w.registry

namespace World.Quiet

variable {w w' : World V}

theorem of_same (h : w.Same w') : w.Quiet w' :=
  ⟨.of_same h, h.state, h.shared, h.registry⟩

theorem notifyCell (w : World V) (i : ViewId) (k : DynKey) : w.Quiet (w.notifyCell i k) :=
  ⟨.notifyCell w i k, fun _ _ => World.state_notifyCell .., rfl, rfl⟩

theorem updateQueryDeps (w : World V) (i : ViewId) (k : DynKey) (deps : List Dep) :
    w.Quiet (w.modifyRuntime i (·.updateQueryDeps k deps)) :=
  ⟨.updateQueryDeps w i k deps, fun _ _ => World.state_modifyRuntime .., rfl, rfl⟩

theorem looked (w : World V) (n : Nat) : w.Quiet { w with lookups := n } :=
  ⟨⟨fun _ => rfl, fun _ => rfl, fun _ => rfl, fun _ => rfl, rfl, rfl⟩, fun _ _ => rfl, rfl, rfl⟩

theorem called (w : World V) (n : Nat) : w.Quiet { w with calls := n } :=
  ⟨⟨fun _ => rfl, fun _ => rfl, fun _ => rfl, fun _ => rfl, rfl, rfl⟩, fun _ _ => rfl, rfl, rfl⟩

end World.Quiet

namespace Spec

variable {T : Spec V} {p p' : Past V} {w w' : World V}

/-- `p'` remembers what `p` does, and perhaps one right answer more. -/
inductive Told (T : Spec V) (p : Past V) (w : World V) : Past V → Prop
  | same : Told T p w p
  | tell {q : DynKey} {a : PicanteResult (Option V)} (hset : w.rev 0 ≤ p.settled)
      (ha : T.Right p w (w.rev 0) q a) : Told T p w (p.tell q (w.rev 0) a)

theorem Told.settled (h : T.Told p w p') : p'.settled = p.settled := by
  cases h <;> rfl

/-- A step that changes no revision and no slot, and adds no outdated record. -/
theorem Coherent.later (hc : T.Coherent p w) (hfix : w.Fixed w') (htold : T.Told p w p')
    (hstale : ∀ i q R, w'.state i q = .ready R → R.verifiedAt ≠ w.rev i →
      w.state i q = .ready R)
    (hnative : ∀ q F, w'.shared (w'.scope 0) q = some F → F.foreign = false →
      w.shared (w.scope 0) q = some F ∨ p.settled ≤ F.verifiedAt)
    (hnext : w.registry.nextEntry ≤ w'.registry.nextEntry)
    (hentries : ∀ e, e < w.registry.nextEntry →
      (w'.registry.entries e).key = (w.registry.entries e).key ∧
        (w'.registry.entries e).leader = (w.registry.entries e).leader) :
    T.Later p w p' w' where
  past := by
    cases htold with
    | same => exact .refl p
    | tell _ _ => exact ⟨Nat.le_refl _, fun _ _ => rfl⟩
  settled_le := hc.settled_le
  viewCount := Nat.le_of_eq hfix.viewCount.symm
  rev i _ := .inl (hfix.rev i)
  rev_le i _ := Nat.le_of_eq (hfix.rev i).symm
  answer q r a ha := by
    cases htold with
    | same => exact ha
    | @tell q' a' _ ha' =>
      rw [Past.answer_tell]
      split
      · next h =>
        obtain ⟨rfl, rfl⟩ := h
        rw [(hc.current q a ha).1.functional ha']
      · exact ha
  answer_past q r hr := by
    cases htold with
    | same => rfl
    | tell _ _ =>
      rw [Past.answer_tell, if_neg]
      rintro ⟨-, rfl⟩
      exact Nat.lt_irrefl _ hr
  interned k v hv := (hfix.internedAt T.schema k).trans hv
  stale i _ _ q R hs hne := hstale i q R hs hne
  native := hnative
  nextEntry := hnext
  entries := hentries

/-! ## 2. Updates that store nothing -/

/-- The world has moved on, and is coherent still. -/
structure Kept (T : Spec V) (p : Past V) (w : World V) (p' : Past V) (w' : World V) :
    Prop where
  coherent : T.Coherent p' w'
  later : T.Later p w p' w'
  rev : ∀ i, w'.rev i = w.rev i
  settled : p'.settled = p.settled

theorem Kept.trans {p'' : Past V} {w'' : World V} (hc : T.Coherent p w)
    (h : T.Kept p w p' w') (h' : T.Kept p' w' p'' w'') : T.Kept p w p'' w'' :=
  ⟨h'.coherent, h.later.trans h'.later hc.nonempty, fun i => (h'.rev i).trans (h.rev i),
    h'.settled.trans h.settled⟩

/-- **Nothing that is cached changes.** -/
theorem Coherent.quiet (hc : T.Coherent p w) (h : w.Quiet w') : T.Kept p w p w' := by
  have hl : T.Later p w p w' := by
    refine hc.later h.fixed .same (fun i q R hs _ => h.state i q ▸ hs) (fun q F hF _ => .inl ?_)
      (Nat.le_of_eq (by rw [h.registry])) (fun e _ => by rw [h.registry]; exact ⟨rfl, rfl⟩)
    rwa [h.shared, h.fixed.scope] at hF
  refine ⟨hc.step hl h.fixed rfl (fun i q R hs => .inl (h.state i q ▸ hs))
    (fun i q e ver hs => .inl (h.state i q ▸ hs)) (fun q F hF => .inl ?_) (fun e => .inl ?_)
    (fun key e hf => .inl ?_) (fun q r a ha => .inl ha), hl, h.fixed.rev, rfl⟩
  · rwa [h.shared, h.fixed.scope] at hF
  · rw [h.registry]
    exact ⟨rfl, rfl, rfl⟩
  · rwa [h.registry] at hf

/-- **A cell is cleared**: it is put in a state that is no result. -/
theorem Coherent.clear (hc : T.Coherent p w) (st : ErasedState V) (hst : st.isSettled = false)
    (i : ViewId) (k : DynKey) : T.Kept p w p (w.setCell i k st) := by
  have hfix := World.Fixed.setCell w i k st
  have hready : ∀ j q R, (w.setCell i k st).state j q = .ready R → w.state j q = .ready R := by
    intro j q R hs
    rw [World.state_setCell] at hs
    split at hs
    · rw [hs] at hst
      cases hst
    · exact hs
  have hl : T.Later p w p (w.setCell i k st) :=
    hc.later hfix .same (fun j q R hs _ => hready j q R hs)
      (fun q F hF _ => .inl (by rwa [hfix.scope] at hF)) (Nat.le_refl _)
      (fun e _ => ⟨rfl, rfl⟩)
  refine ⟨hc.step hl hfix rfl (fun j q R hs => .inl (hready j q R hs))
    (fun j q e ver hs => .inl ?_) (fun q F hF => .inl (by rwa [hfix.scope] at hF))
    (fun e => .inl ⟨rfl, rfl, rfl⟩) (fun key e hf => .inl hf) (fun q r a ha => .inl ha), hl,
    hfix.rev, rfl⟩
  rw [World.state_setCell] at hs
  split at hs
  · rw [hs] at hst
    cases hst
  · exact hs

/-- **A record is evicted from the shared cache**. -/
theorem Coherent.evict (hc : T.Coherent p w) (scope : RuntimeId) (k : DynKey) :
    T.Kept p w p (w.evictShared scope k) := by
  have hfix : w.Fixed (w.evictShared scope k) :=
    ⟨fun _ => rfl, fun _ => rfl, fun _ => rfl, fun _ => rfl, rfl, rfl⟩
  have hshared : ∀ q F, (w.evictShared scope k).shared ((w.evictShared scope k).scope 0) q =
      some F → w.shared (w.scope 0) q = some F := by
    intro q F hF
    rw [World.shared_evictShared] at hF
    split at hF
    · cases hF
    · exact hF
  have hl : T.Later p w p (w.evictShared scope k) :=
    hc.later hfix .same (fun _ _ _ hs _ => hs) (fun q F hF _ => .inl (hshared q F hF))
      (Nat.le_refl _) (fun e _ => ⟨rfl, rfl⟩)
  exact ⟨hc.step hl hfix rfl (fun _ _ _ hs => .inl hs) (fun _ _ _ _ hs => .inl hs)
    (fun q F hF => .inl (hshared q F hF)) (fun e => .inl ⟨rfl, rfl, rfl⟩)
    (fun key e hf => .inl hf) (fun q r a ha => .inl ha), hl, hfix.rev, rfl⟩

/-- **The registry changes**: entries keep their key and their leader, and what they become is
in order. -/
theorem Coherent.register (hc : T.Coherent p w) (f : Registry V → Registry V)
    (hnext : w.registry.nextEntry ≤ (f w.registry).nextEntry)
    (hkeys : ∀ e, e < w.registry.nextEntry →
      ((f w.registry).entries e).key = (w.registry.entries e).key ∧
        ((f w.registry).entries e).leader = (w.registry.entries e).leader)
    (hstates : ∀ e, ((f w.registry).entries e).state = (w.registry.entries e).state ∧
        ((f w.registry).entries e).key = (w.registry.entries e).key ∧
        ((f w.registry).entries e).leader = (w.registry.entries e).leader ∨
      T.EntryOk p w ((f w.registry).entries e))
    (hfiled : ∀ key e, (f w.registry).filed key = some e → w.registry.filed key = some e ∨
      e < (f w.registry).nextEntry ∧ ((f w.registry).entries e).key = key) :
    T.Kept p w p (w.modifyRegistry f) := by
  have hfix : w.Fixed (w.modifyRegistry f) :=
    ⟨fun _ => rfl, fun _ => rfl, fun _ => rfl, fun _ => rfl, rfl, rfl⟩
  have hl : T.Later p w p (w.modifyRegistry f) :=
    hc.later hfix .same (fun _ _ _ hs _ => hs) (fun q F hF _ => .inl hF) hnext hkeys
  refine ⟨hc.step hl hfix rfl (fun _ _ _ hs => .inl hs) (fun _ _ _ _ hs => .inl hs)
    (fun q F hF => .inl hF) (fun e => ?_) hfiled (fun q r a ha => .inl ha), hl, hfix.rev, rfl⟩
  exact (hstates e).imp id fun hok => hl.entryOk rfl rfl rfl hok

/-! ## 3. Updates that store a result -/

/-- **A cell becomes ready.** -/
theorem Coherent.setReady (hc : T.Coherent p w) {i : ViewId} {q : DynKey} {R : ReadyRecord V}
    (hset : w.rev i ≤ p.settled) (hver : R.verifiedAt = w.rev i)
    (hsound : T.Sound p w (w.rev i) q R.value R.changedAt)
    (hev : R.foreign = false → T.Evidence p w q R.value R.deps R.changedAt (w.rev i))
    (hcov : i = 0 → T.Covered p w q (w.rev 0) (.ok R.value)) :
    ∃ p', T.Kept p w p' (w.setCell i q (.ready R)) ∧
      (i = 0 → p'.answer q (w.rev 0) = some (.ok (some R.value))) := by
  have hfix := World.Fixed.setCell w i q (.ready R)
  -- only the database remembers its answers
  obtain ⟨p', htold, hans, hadd⟩ : ∃ p', T.Told p w p' ∧
      (i = 0 → p'.answer q (w.rev 0) = some (.ok (some R.value))) ∧
      ∀ q' r a, p'.answer q' r = some a → p.answer q' r = some a ∨
        i = 0 ∧ q' = q ∧ r = w.rev 0 ∧ a = .ok (some R.value) := by
    by_cases hi : i = 0
    · subst hi
      refine ⟨p.tell q (w.rev 0) (.ok (some R.value)), .tell hset hsound.right,
        fun _ => by rw [Past.answer_tell, if_pos ⟨rfl, rfl⟩], fun q' r a ha => ?_⟩
      rw [Past.answer_tell] at ha
      split at ha
      · next h => exact .inr ⟨rfl, h.1, h.2, (Option.some.inj ha).symm⟩
      · exact .inl ha
    · exact ⟨p, .same, fun h => absurd h hi, fun _ _ _ ha => .inl ha⟩
  have hl : T.Later p w p' (w.setCell i q (.ready R)) := by
    refine hc.later hfix htold (fun j q' R' hs hne => ?_)
      (fun q F hF _ => .inl (by rwa [hfix.scope] at hF)) (Nat.le_refl _) (fun e _ => ⟨rfl, rfl⟩)
    rw [World.state_setCell] at hs
    split at hs
    · next h =>
      obtain ⟨rfl, rfl⟩ := h
      cases hs
      exact absurd hver hne
    · exact hs
  refine ⟨p', ⟨hc.step hl hfix htold.settled (fun j q' R' hs => ?_) (fun j q' e ver hs => .inl ?_)
    (fun q F hF => .inl (by rwa [hfix.scope] at hF)) (fun e => .inl ⟨rfl, rfl, rfl⟩)
    (fun key e hf => .inl hf) (fun q' r a ha => ?_), hl, hfix.rev, htold.settled⟩, hans⟩
  · rw [World.state_setCell] at hs
    split at hs
    · next h =>
      obtain ⟨rfl, rfl⟩ := h
      cases hs
      refine .inr ⟨⟨hver ▸ hsound.changed_le, ?_, ?_, ?_, ?_, ?_⟩, fun hj _ => hans hj⟩
      · rw [htold.settled, hver]; exact hset
      · exact Nat.le_of_eq (hver.trans (hfix.rev j).symm)
      · intro _
        rw [hfix.rev]
        exact hl.right hset hsound.right
      · rw [hfix.rev]
        exact hl.honest (hc.rev_le j) hsound.honest
      · intro hn
        rw [hver]
        exact hl.evidence (hev hn)
    · exact .inl hs
  · rw [World.state_setCell] at hs
    split at hs
    · cases hs
    · exact hs
  · rcases hadd q' r a ha with hold | ⟨rfl, rfl, rfl, rfl⟩
    · exact .inl hold
    · refine .inr ⟨rfl, ?_, ?_, ⟨.ok R.value, rfl, ?_⟩, fun R' hs => ?_⟩
      · rw [htold.settled, hfix.rev]; exact hset
      · rw [hfix.rev]; exact hl.right hset hsound.right
      · rw [hfix.rev]; exact hl.covered hset (hcov rfl)
      · rw [World.state_setCell_self] at hs
        cases hs
        rw [hver, hfix.rev]

/-- **A cell is poisoned.** -/
theorem Coherent.setPoisoned (hc : T.Coherent p w) {i : ViewId} {q : DynKey}
    {e : PicanteError} (hset : w.rev i ≤ p.settled) (hf : T.Fails p w (w.rev i) q e)
    (hcov : T.account = .answers → i = 0 → T.Covered p w q (w.rev 0) (.error e)) :
    ∃ p', T.Kept p w p' (w.setCell i q (.poisoned e (w.rev i))) ∧
      (T.account = .answers → i = 0 → p'.answer q (w.rev 0) = some (.error e)) := by
  have hfix := World.Fixed.setCell w i q (.poisoned e (w.rev i))
  obtain ⟨p', htold, hans, hadd⟩ : ∃ p', T.Told p w p' ∧
      (T.account = .answers → i = 0 → p'.answer q (w.rev 0) = some (.error e)) ∧
      ∀ q' r a, p'.answer q' r = some a → p.answer q' r = some a ∨
        T.account = .answers ∧ i = 0 ∧ q' = q ∧ r = w.rev 0 ∧ a = .error e := by
    by_cases hi : T.account = .answers ∧ i = 0
    · obtain ⟨hacc, rfl⟩ := hi
      have hright : T.Right p w (w.rev 0) q (.error e) := by
        have h := hf
        rw [Fails, hacc] at h
        exact h
      refine ⟨p.tell q (w.rev 0) (.error e), .tell hset hright,
        fun _ _ => by rw [Past.answer_tell, if_pos ⟨rfl, rfl⟩], fun q' r a ha => ?_⟩
      rw [Past.answer_tell] at ha
      split at ha
      · next h => exact .inr ⟨hacc, rfl, h.1, h.2, (Option.some.inj ha).symm⟩
      · exact .inl ha
    · exact ⟨p, .same, fun h h' => absurd ⟨h, h'⟩ hi, fun _ _ _ ha => .inl ha⟩
  have hready : ∀ j q' R, (w.setCell i q (.poisoned e (w.rev i))).state j q' = .ready R →
      w.state j q' = .ready R := by
    intro j q' R hs
    rw [World.state_setCell] at hs
    split at hs
    · cases hs
    · exact hs
  have hl : T.Later p w p' (w.setCell i q (.poisoned e (w.rev i))) :=
    hc.later hfix htold (fun j q' R hs _ => hready j q' R hs)
      (fun q F hF _ => .inl (by rwa [hfix.scope] at hF)) (Nat.le_refl _) (fun e _ => ⟨rfl, rfl⟩)
  refine ⟨p', ⟨hc.step hl hfix htold.settled (fun j q' R hs => .inl (hready j q' R hs))
    (fun j q' e' ver hs => ?_) (fun q F hF => .inl (by rwa [hfix.scope] at hF))
    (fun e => .inl ⟨rfl, rfl, rfl⟩) (fun key e hf => .inl hf) (fun q' r a ha => ?_), hl,
    hfix.rev, htold.settled⟩, hans⟩
  · rw [World.state_setCell] at hs
    split at hs
    · next h =>
      obtain ⟨rfl, rfl⟩ := h
      cases hs
      refine .inr ⟨⟨?_, hl.fails hset hf⟩, fun hacc hj _ => hans hacc hj⟩
      rw [htold.settled]
      exact hset
    · exact .inl hs
  · rcases hadd q' r a ha with hold | ⟨hacc, rfl, rfl, rfl, rfl⟩
    · exact .inl hold
    · refine .inr ⟨rfl, ?_, ?_, ⟨.error e, rfl, ?_⟩, fun R' hs => ?_⟩
      · rw [htold.settled, hfix.rev]; exact hset
      · rw [hfix.rev]
        refine hl.right hset ?_
        have h := hf
        rw [Fails, hacc] at h
        exact h
      · rw [hfix.rev]; exact hl.covered hset (hcov hacc rfl)
      · rw [World.state_setCell_self] at hs
        cases hs

/-- **A result is published in the shared cache**. -/
theorem Coherent.publish (hc : T.Coherent p w) {i : ViewId} {q : DynKey}
    {F : SharedCacheRecord V} (hset : w.rev i ≤ p.settled) (hver : F.verifiedAt = w.rev i)
    (hsound : T.Sound p w (w.rev i) q F.value F.changedAt)
    (hev : F.foreign = false →
      i = 0 ∧ T.Evidence p w q F.value F.deps F.changedAt (w.rev i)) :
    T.Kept p w p (w.putShared (w.scope i) q F) ∧
      (w.putShared (w.scope i) q F).NoOlder q (w.rev i) := by
  have hfix : w.Fixed (w.putShared (w.scope i) q F) :=
    ⟨fun _ => rfl, fun _ => rfl, fun _ => rfl, fun _ => rfl, rfl, rfl⟩
  have hscope := hc.scope i
  have hshared : ∀ q' F', (w.putShared (w.scope i) q F).shared (w.scope 0) q' = some F' →
      w.shared (w.scope 0) q' = some F' ∨ q' = q ∧ F' = F := by
    intro q' F' hF
    rw [World.shared_putShared] at hF
    split at hF
    · next h => exact .inr ⟨h.2, (Option.some.inj hF).symm⟩
    · exact .inl hF
  have hl : T.Later p w p (w.putShared (w.scope i) q F) := by
    refine hc.later hfix .same (fun _ _ _ hs _ => hs) (fun q' F' hF hn => ?_) (Nat.le_refl _)
      (fun e _ => ⟨rfl, rfl⟩)
    rcases hshared q' F' hF with hold | ⟨rfl, rfl⟩
    · exact .inl hold
    · -- the database publishes at its current revision
      obtain ⟨rfl, -⟩ := hev hn
      exact .inr (by rw [hver]; exact hc.settled_le)
  refine ⟨⟨hc.step hl hfix rfl (fun _ _ _ hs => .inl hs) (fun _ _ _ _ hs => .inl hs)
    (fun q' F' hF => ?_) (fun e => .inl ⟨rfl, rfl, rfl⟩) (fun key e hf => .inl hf)
    (fun q r a ha => .inl ha), hl, hfix.rev, rfl⟩, ?_⟩
  · rcases hshared q' F' hF with hold | ⟨rfl, rfl⟩
    · exact .inl hold
    · have hsound' : T.Sound p w F'.verifiedAt q' F'.value F'.changedAt := hver ▸ hsound
      refine .inr ⟨hver ▸ hset, hl.sound (hver ▸ hset) hsound',
        fun hn => hver ▸ hl.evidence (hev hn).2, fun hn => ?_⟩
      refine hsound'.honest.succ fun b hb => ?_
      obtain ⟨rfl, -⟩ := hev hn
      rw [hver] at hb
      exact (hc.current q' b hb).1.functional hsound.right
  · intro F' hF _
    have hsc : (w.putShared (w.scope i) q F).scope 0 = w.scope i := hscope.symm
    rw [hsc, World.shared_putShared, if_pos ⟨rfl, rfl⟩] at hF
    cases hF
    exact Nat.le_of_eq hver.symm

end Spec

end Picante

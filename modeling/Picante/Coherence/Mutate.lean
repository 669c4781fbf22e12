/-
# What the operations of the caller keep

The revision moves (`Coherent.bump`), an entry is stored (`Coherent.storeInput`), a snapshot is
made, a value interned: none of them stores a result, so each keeps the world coherent with the
same past.

The past is brought up to date in one place only.  When no `set` or `remove` is under way, every
revision that has been reached is settled (`Coherent.settle`), and holds what the slots hold.
-/
import Picante.Coherence.Update

namespace Picante

open ReadProg Stamp

variable {V : Type}

/-- Every revision the database has reached is settled: from where the past ends, they hold
what the slots of the database hold now. -/
def Past.settle (p : Past V) (w : World V) : Past V :=
  { p with
    settled := w.rev 0
    content := fun r => if r ≤ p.settled then p.content r else (w.inputs 0).get }

namespace Spec

variable {T : Spec V} {p p' : Past V} {w w' : World V}

/-! ## 1. What is not touched -/

/-- The records of the shared cache, when no answer is added. -/
theorem Later.sharedOk (hl : T.Later p w p' w') (hans : p'.answer = p.answer) {q : DynKey}
    {F : SharedCacheRecord V} (h : T.SharedOk p w q F) : T.SharedOk p' w' q F where
  settled := Nat.le_trans h.settled hl.past.settled
  sound := hl.sound h.settled h.sound
  evidence hn := hl.evidence (h.evidence hn)
  native hn := by rw [hans]; exact h.native hn

/-- **An operation of the caller keeps the world coherent**: it leaves the shared tables, the
cells and the revision of the database as they are, and accounts for the slots and for the cells
of the snapshots. -/
theorem Coherent.still (hc : T.Coherent p w) (hl : T.Later p w p' w')
    (hans : p'.answer = p.answer) (horigin : w'.origin 0 = w.origin 0)
    (hscope : ∀ i, w'.scope i = (w.origin 0).1) (hrev : w'.rev 0 = w.rev 0)
    (hstate : ∀ k, w'.state 0 k = w.state 0 k) (hshared : w'.shared = w.shared)
    (hregistry : w'.registry = w.registry) (hset : p'.settled ≤ w'.rev 0)
    (hsnap : ∀ i, i ≠ 0 → w'.rev i ≤ p'.settled)
    (hinterned : ∀ kind, (w'.interned kind).Fresh)
    (htouch : ∀ i k, (w'.inputs i).touch k ≤ w'.rev i)
    (hsteady : ∀ i k r, r ≤ p'.settled → r ≤ w'.rev i → (w'.inputs i).touch k ≤ r →
      p'.content r k = (w'.inputs i).get k)
    (hready : ∀ i q R, w'.state i q = .ready R → T.ReadyOk p' w' i q R)
    (hpoison : ∀ i q e ver, w'.state i q = .poisoned e ver → w.state i q = .poisoned e ver) :
    T.Coherent p' w' where
  nonempty := Nat.lt_of_lt_of_le hc.nonempty hl.viewCount
  live := horigin ▸ hc.live
  family i := by rw [hscope, horigin]
  settled_le := hset
  snapshot_le := hsnap
  interned := hinterned
  touch_le := htouch
  steady := hsteady
  ready := hready
  poisoned i q e ver hs := hl.poisonOk (hc.poisoned i q e ver (hpoison i q e ver hs))
  shared q F hF := by
    rw [hscope, hshared, ← hc.family 0] at hF
    exact hl.sharedOk hans (hc.shared q F hF)
  entries e := by
    rw [hregistry]
    exact hl.entryOk rfl rfl rfl (hc.entries e)
  filed key e hf := by
    rw [hregistry] at hf ⊢
    exact hc.filed key e hf
  ready_answered q R hs hver := by
    rw [hstate] at hs
    rw [hrev] at hver ⊢
    rw [hans]
    exact hc.ready_answered q R hs hver
  poison_answered hacc q e hs := by
    rw [hrev] at hs ⊢
    rw [hstate] at hs
    rw [hans]
    exact hc.poison_answered hacc q e hs
  answered q r a ha := by
    rw [hans] at ha
    obtain ⟨hr, out, hout, hcov⟩ := hc.answered q r a ha
    exact ⟨Nat.le_trans hr hl.past.settled, out, hout, hl.covered hr hcov⟩
  current q a ha := by
    rw [hans, hrev] at ha
    obtain ⟨hright, hcur⟩ := hc.current q a ha
    rw [hrev]
    exact ⟨hl.right (hc.answered q _ a ha).1 hright, fun R hs => hcur R (hstate q ▸ hs)⟩

/-! ## 2. The revision moves -/

/-- **The database moves to its next revision**, which is not settled. -/
theorem Coherent.bump (hc : T.Coherent p w) :
    T.Coherent p (w.modifyRuntime 0 (·.bumpRevision)) ∧
      T.Later p w p (w.modifyRuntime 0 (·.bumpRevision)) := by
  have hrev : ∀ i, (w.modifyRuntime 0 (·.bumpRevision)).rev i =
      if i = 0 then w.rev 0 + 1 else w.rev i := fun i => World.rev_modifyRuntime ..
  have hrev0 : (w.modifyRuntime 0 (·.bumpRevision)).rev 0 = w.rev 0 + 1 := by simp [hrev]
  have hscope : ∀ i, (w.modifyRuntime 0 (·.bumpRevision)).scope i = w.scope i := by
    intro i
    rw [World.scope_modifyRuntime]
    split
    · next h => subst h; rfl
    · rfl
  have hstate : ∀ i k, (w.modifyRuntime 0 (·.bumpRevision)).state i k = w.state i k :=
    fun i k => World.state_modifyRuntime ..
  have hinputs : ∀ i, (w.modifyRuntime 0 (·.bumpRevision)).inputs i = w.inputs i :=
    fun i => World.inputs_modifyRuntime ..
  -- no record and no answer is of the new revision yet
  have hold : ∀ r, r ≤ p.settled → r ≠ (w.modifyRuntime 0 (·.bumpRevision)).rev 0 := by
    intro r hr heq
    rw [hrev0] at heq
    exact Nat.not_succ_le_self _ (heq ▸ Nat.le_trans hr hc.settled_le)
  have hl : T.Later p w p (w.modifyRuntime 0 (·.bumpRevision)) := by
    refine ⟨.refl p, hc.settled_le, Nat.le_refl _, fun i _ => ?_, fun i _ => ?_,
      fun _ _ _ h => h, fun _ _ _ => rfl, fun _ _ h => h, fun i _ _ q R hs _ => hstate i q ▸ hs,
      fun q F hF _ => .inl (by rwa [hscope] at hF), Nat.le_refl _, fun _ _ => ⟨rfl, rfl⟩⟩
    · rw [hrev]
      split
      · exact .inr (Nat.lt_succ_of_le hc.settled_le)
      · exact .inl rfl
    · rw [hrev]
      split
      · next h => subst h; exact Nat.le_succ _
      · exact Nat.le_refl _
  refine ⟨?_, hl⟩
  constructor
  case nonempty => exact hc.nonempty
  case live => rw [World.origin_bumpRevision]; exact hc.live
  case family => intro i; rw [hscope, World.origin_bumpRevision]; exact hc.family i
  case settled_le => rw [hrev0]; exact Nat.le_succ_of_le hc.settled_le
  case snapshot_le => intro i hi; rw [hrev, if_neg hi]; exact hc.snapshot_le i hi
  case interned => exact hc.interned
  case touch_le =>
    intro i k
    rw [hinputs, hrev]
    split
    · next h => subst h; exact Nat.le_succ_of_le (hc.touch_le 0 k)
    · exact hc.touch_le i k
  case steady =>
    intro i k r hr hri ht
    rw [hinputs] at ht ⊢
    rw [hrev] at hri
    refine hc.steady i k r hr ?_ ht
    split at hri
    · next h => subst h; exact Nat.le_trans hr hc.settled_le
    · exact hri
  case ready =>
    intro i q R hs
    rw [hstate] at hs
    have hR := hc.ready i q R hs
    by_cases hi : i = 0
    · subst hi
      refine ⟨hR.changed_le, hR.settled, ?_, fun h => absurd h (hold _ hR.settled), ?_,
        hR.evidence⟩
      · rw [hrev0]
        exact Nat.le_succ_of_le hR.verified_le
      · rw [hrev0]
        refine hR.honest.succ fun b hb => ?_
        have hver := (hc.current q b hb).2 R hs
        rw [hc.ready_answered q R hs hver] at hb
        exact (Option.some.inj hb).symm
    · have hsame : (w.modifyRuntime 0 (·.bumpRevision)).rev i = w.rev i := by
        rw [hrev, if_neg hi]
      exact hl.readyOk hsame (hc.rev_le i) hR
  case poisoned => intro i q e ver hs; rw [hstate] at hs; exact hc.poisoned i q e ver hs
  case shared => intro q F hF; rw [hscope] at hF; exact hl.sharedOk rfl (hc.shared q F hF)
  case entries => exact fun e => hl.entryOk rfl rfl rfl (hc.entries e)
  case filed => exact hc.filed
  case ready_answered =>
    intro q R hs hver
    rw [hstate] at hs
    exact absurd hver (hold _ (hc.ready 0 q R hs).settled)
  case poison_answered =>
    intro _ q e hs
    rw [hstate] at hs
    exact absurd rfl (hold _ (hc.poisoned 0 q e _ hs).1)
  case answered =>
    intro q r a ha
    obtain ⟨hr, out, hout, hcov⟩ := hc.answered q r a ha
    exact ⟨hr, out, hout, hl.covered hr hcov⟩
  case current => intro q a ha; exact absurd rfl (hold _ (hc.answered q _ a ha).1)

/-- **Every revision reached is settled.** -/
theorem Coherent.settle (hc : T.Coherent p w) :
    T.Coherent (p.settle w) w ∧ T.Later p w (p.settle w) w := by
  have hl : T.Later p w (p.settle w) w := by
    refine ⟨⟨hc.settled_le, fun r hr => if_pos hr⟩, hc.settled_le, Nat.le_refl _,
      fun _ _ => .inl rfl, fun _ _ => Nat.le_refl _, fun _ _ _ h => h, fun _ _ _ => rfl,
      fun _ _ h => h, fun _ _ _ _ _ hs _ => hs, fun _ _ hF _ => .inl hF, Nat.le_refl _,
      fun _ _ => ⟨rfl, rfl⟩⟩
  refine ⟨hc.still hl rfl rfl hc.family rfl (fun _ => rfl) rfl rfl (Nat.le_refl _)
    (fun i _ => hc.rev_le i) hc.interned hc.touch_le (fun i k r _ hri ht => ?_)
    (fun i q R hs => hl.readyOk rfl (hc.rev_le i) (hc.ready i q R hs)) fun _ _ _ _ hs => hs, hl⟩
  by_cases hr : r ≤ p.settled
  · exact (congrFun (if_pos hr) k).trans (hc.steady i k r hr hri ht)
  · -- no snapshot has come as far
    have hi : i = 0 := Classical.byContradiction fun hi =>
      hr (Nat.le_trans hri (hc.snapshot_le i hi))
    subst hi
    exact congrFun (if_neg hr) k

/-! ## 3. Slots, values and snapshots -/

/-- **An entry is stored** at a revision that is not settled. -/
theorem Coherent.storeInput (hc : T.Coherent p w) (k : DynKey) (v : Option V) {r : Revision}
    (hr : p.settled < r) (hr0 : r ≤ w.rev 0) :
    T.Coherent p (w.storeInput 0 k v r) ∧ T.Later p w p (w.storeInput 0 k v r) := by
  have hl : T.Later p w p (w.storeInput 0 k v r) := by
    refine ⟨.refl p, hc.settled_le, Nat.le_refl _, fun i _ => .inl (World.rev_storeInput ..),
      fun i _ => Nat.le_of_eq (World.rev_storeInput ..).symm, fun _ _ _ h => h, fun _ _ _ => rfl,
      fun _ _ h => h, fun i _ _ q R hs _ => by rwa [World.state_storeInput] at hs,
      fun q F hF _ => .inl (by rwa [World.scope_storeInput] at hF), Nat.le_refl _,
      fun _ _ => ⟨rfl, rfl⟩⟩
  refine ⟨hc.still hl rfl (World.origin_storeInput ..) (fun i => ?_) (World.rev_storeInput ..)
    (fun _ => World.state_storeInput ..) rfl rfl ?_ (fun i hi => ?_) hc.interned (fun i k' => ?_)
    (fun i k' s hs hsi ht => ?_) (fun i q R hs => ?_) fun i q e ver hs => ?_, hl⟩
  · rw [World.scope_storeInput]
    exact hc.family i
  · rw [World.rev_storeInput]
    exact hc.settled_le
  · rw [World.rev_storeInput]
    exact hc.snapshot_le i hi
  · rw [World.rev_storeInput, World.inputs_storeInput]
    split
    · next h =>
      subst h
      by_cases hk : k' = k
      · subst hk
        rw [Inputs.touch_store_self]
        exact hr0
      · rw [Inputs.touch_store_ne _ hk]
        exact hc.touch_le 0 k'
    · exact hc.touch_le i k'
  · rw [World.rev_storeInput] at hsi
    rw [World.inputs_storeInput] at ht ⊢
    by_cases hi : i = 0
    · subst hi
      rw [if_pos rfl] at ht ⊢
      by_cases hk : k' = k
      · subst hk
        rw [Inputs.touch_store_self] at ht
        exact absurd (Nat.le_trans ht hs) (Nat.not_le_of_lt hr)
      · rw [Inputs.touch_store_ne _ hk] at ht
        rw [Inputs.get_store_ne _ hk]
        exact hc.steady 0 k' s hs hsi ht
    · rw [if_neg hi] at ht ⊢
      exact hc.steady i k' s hs hsi ht
  · rw [World.state_storeInput] at hs
    exact hl.readyOk (World.rev_storeInput ..) (hc.rev_le i) (hc.ready i q R hs)
  · rwa [World.state_storeInput] at hs

/-- **A value is interned.** -/
theorem Coherent.intern [DecidableEq V] (hc : T.Coherent p w) (kind : QueryKindId) (v : V) :
    T.Coherent p (w.intern kind v) ∧ T.Later p w p (w.intern kind v) := by
  have hl : T.Later p w p (w.intern kind v) := by
    refine ⟨.refl p, hc.settled_le, Nat.le_refl _, fun _ _ => .inl rfl,
      fun _ _ => Nat.le_refl _, fun _ _ _ h => h, fun _ _ _ => rfl, fun k x hx => ?_,
      fun _ _ _ _ _ hs _ => hs, fun _ _ hF _ => .inl hF, Nat.le_refl _, fun _ _ => ⟨rfl, rfl⟩⟩
    -- a value that has an id keeps it
    obtain ⟨id, hid, hx⟩ := Option.bind_eq_some_iff.mp hx
    refine Option.bind_eq_some_iff.mpr ⟨id, hid, ?_⟩
    show (Function.update w.interned kind ((w.interned kind).intern v).1 k.kind).byId id = some x
    by_cases hk : k.kind = kind
    · subst hk
      rw [Function.update_self]
      exact InternedIngredient.byId_intern (hc.interned _) v hx
    · rwa [Function.update_of_ne hk]
  refine ⟨hc.still hl rfl rfl hc.family rfl (fun _ => rfl) rfl rfl hc.settled_le
    hc.snapshot_le (fun kind' => ?_) hc.touch_le hc.steady
    (fun i q R hs => hl.readyOk rfl (hc.rev_le i) (hc.ready i q R hs)) fun _ _ _ _ hs => hs, hl⟩
  show (Function.update w.interned kind ((w.interned kind).intern v).1 kind').Fresh
  by_cases hk : kind' = kind
  · subst hk
    rw [Function.update_self]
    exact (hc.interned _).intern v
  · rw [Function.update_of_ne hk]
    exact hc.interned kind'

/-- **A snapshot is made** while every revision reached is settled. -/
theorem Coherent.snapshot (hc : T.Coherent p w) (hset : p.settled = w.rev 0) :
    T.Coherent p w.snapshot ∧ T.Later p w p w.snapshot := by
  have h0 : (0 : ViewId) ≠ w.viewCount := Nat.ne_of_lt hc.nonempty
  have hold : ∀ {i}, i < w.viewCount → w.snapshot.rev i = w.rev i := by
    intro i hi
    rw [World.rev_snapshot, if_neg (Nat.ne_of_lt hi)]
  have hl : T.Later p w p w.snapshot := by
    refine ⟨.refl p, hc.settled_le, Nat.le_succ _, fun i hi => .inl (hold hi),
      fun i hi => Nat.le_of_eq (hold hi).symm, fun _ _ _ h => h, fun _ _ _ => rfl,
      fun _ _ h => h, fun i hi _ q R hs _ => ?_, fun q F hF _ => .inl ?_, Nat.le_refl _,
      fun _ _ => ⟨rfl, rfl⟩⟩
    · rwa [World.state_snapshot, if_neg (Nat.ne_of_lt hi)] at hs
    · rwa [World.scope_snapshot, if_neg h0] at hF
  refine ⟨hc.still hl rfl ?_ (fun i => ?_) (hold hc.nonempty) (fun k => ?_) rfl rfl ?_
    (fun i hi => ?_) hc.interned (fun i k => ?_) (fun i k r hr hri ht => ?_)
    (fun i q R hs => ?_) fun i q e ver hs => ?_, hl⟩
  · rw [World.origin_snapshot, if_neg h0]
  · rw [World.scope_snapshot]
    split
    · rfl
    · exact hc.family i
  · rw [World.state_snapshot, if_neg h0]
  · rw [hold hc.nonempty]
    exact hc.settled_le
  · rw [World.rev_snapshot]
    split
    · exact Nat.le_of_eq hset.symm
    · exact hc.snapshot_le i hi
  · rw [World.inputs_snapshot, World.rev_snapshot]
    split
    · exact hc.touch_le 0 k
    · exact hc.touch_le i k
  · rw [World.rev_snapshot] at hri
    rw [World.inputs_snapshot] at ht ⊢
    by_cases hi : i = w.viewCount
    · rw [if_pos hi] at hri ht ⊢
      exact hc.steady 0 k r hr hri ht
    · rw [if_neg hi] at hri ht ⊢
      exact hc.steady i k r hr hri ht
  · rw [World.state_snapshot] at hs
    by_cases hi : i = w.viewCount
    · rw [if_pos hi] at hs
      have hR := hc.ready 0 q R (ErasedCell.ready_of_snapshot hs)
      have hrev : w.snapshot.rev i = w.rev 0 := by rw [World.rev_snapshot, if_pos hi]
      refine ⟨hR.changed_le, hR.settled, hrev ▸ hR.verified_le, fun hver => ?_, ?_, ?_⟩
      · rw [hrev] at hver ⊢
        exact hl.right (Nat.le_of_eq hset.symm) (hR.right hver)
      · rw [hrev]
        exact hR.honest
      · exact fun hn => hl.evidence (hR.evidence hn)
    · rw [if_neg hi] at hs
      have hrev : w.snapshot.rev i = w.rev i := by rw [World.rev_snapshot, if_neg hi]
      exact hl.readyOk hrev (hc.rev_le i) (hc.ready i q R hs)
  · rw [World.state_snapshot] at hs
    split at hs
    · exact absurd hs ErasedCell.not_poisoned_of_snapshot
    · exact hs

/-! ## 4. Marking and dropping -/

/-- Marking the database as divergent changes nothing: only a snapshot diverges. -/
theorem Coherent.markDivergent (hc : T.Coherent p w) : T.Kept p w p (w.markDivergent 0) := by
  refine hc.quiet ⟨⟨fun _ => World.rev_markDivergent .., fun _ => ?_,
    fun _ => World.origin_markDivergent .., fun _ => World.inputs_markDivergent .., rfl, rfl⟩,
    fun _ _ => ?_, rfl, rfl⟩
  · exact World.scope_markDivergent_of_live _ _ _ hc.live
  · exact congrArg ErasedCell.state (World.cell_markDivergent ..)

/-- **A whole call of `set` or `remove` on the database.** -/
theorem Coherent.mutate [DecidableEq V] (hc : T.Coherent p w) (k : DynKey) (v : Option V) :
    T.Coherent p (Config.mutateWorld w 0 k v) ∧ T.Later p w p (Config.mutateWorld w 0 k v) := by
  unfold Config.mutateWorld
  split
  · exact ⟨hc, (hc.quiet (.of_same (.refl w))).later⟩
  · obtain ⟨hbump, hl⟩ := hc.bump
    have hk := hbump.markDivergent
    have hr : p.settled < (w.modifyRuntime 0 (·.bumpRevision)).rev 0 := by
      rw [World.rev_modifyRuntime, if_pos rfl]
      exact Nat.lt_succ_of_le hc.settled_le
    obtain ⟨hstore, hl'⟩ := hk.coherent.storeInput k v hr (Nat.le_of_eq (hk.rev 0).symm)
    exact ⟨hstore, (hl.trans hk.later hc.nonempty).trans hl' hc.nonempty⟩

/-- A guard that is dropped cancels its entry. -/
theorem Coherent.cancel (hc : T.Coherent p w) (g : InFlightGuard) :
    T.Kept p w p (w.modifyRegistry (·.cancel g)) := by
  have hsame : ∀ e, ((w.registry.cancel g).entries e).key = (w.registry.entries e).key ∧
      ((w.registry.cancel g).entries e).leader = (w.registry.entries e).leader := by
    intro e
    by_cases he : e = g.entry
    · subst he; simp [Registry.cancel, Registry.setState, Registry.notify, Registry.remove]
    · simp [Registry.cancel, Registry.setState, Registry.notify, Registry.remove, he]
  refine hc.register (·.cancel g) (Nat.le_refl _) (fun e _ => hsame e) (fun e => ?_)
    fun key e hf => .inl ?_
  · by_cases he : e = g.entry
    · subst he
      refine .inr ?_
      simp [EntryOk, Registry.cancel, Registry.setState, Registry.notify, Registry.remove]
    · refine .inl ⟨?_, hsame e⟩
      simp [Registry.cancel, Registry.setState, Registry.notify, Registry.remove, he]
  · simp only [Registry.cancel, Registry.remove] at hf
    by_cases hk : key = g.key
    · subst hk; simp at hf
    · rwa [Function.update_of_ne hk] at hf

end Spec

end Picante

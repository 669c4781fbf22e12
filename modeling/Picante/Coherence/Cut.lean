/-
# A world that was cut

A database may be put in another place without all that it had: a cache file leaves out records, a
snapshot leaves out what is not ready.  In the new place it knows nobody (`World.CutFrom`): there is
nothing in the shared cache or in the registry, and no other view.

* `coherent_cut` -- such a world is coherent if what its records stand on has come along
  (`World.Intact`).

Its past is that of the old one, without the slots that have not come along and without the answers
of the last revision that are not right without them (`Past.cut`).
-/
import Picante.Coherence.Native
import Picante.ReadProg.Consults

namespace Picante

open Config ReadProg Stamp

variable {V : Type}

/-! ## 1. What comes along -/

/-- The database of `w'` has come from that of `w`, and knows nobody. -/
structure World.CutFrom (w w' : World V) : Prop where
  viewCount : w'.viewCount = 1
  origin : w'.origin 0 = (1, false)
  scope : ∀ i, w'.scope i = 1
  rev : w'.rev 0 = w.rev 0
  blank : ∀ i, i ≠ 0 → w'.views i = (World.init : World V).views i
  inputs : ∀ k e, w'.inputs 0 k = some e → w.inputs 0 k = some e
  ready : ∀ q R, w'.state 0 q = .ready R → w.state 0 q = .ready R
  poisoned : ∀ q e ver, w'.state 0 q ≠ .poisoned e ver
  interned : ∀ kind id v, (w'.interned kind).byId id = some v →
    (w.interned kind).byId id = some v
  fresh : ∀ kind, (w'.interned kind).Fresh
  shared : ∀ s q, w'.shared s q = none
  registry : w'.registry = .empty
  log : w'.log = []

/-- The slot, or the interned value, of the key is in `w'` what it is in `w`. -/
def World.Retains (S : Schema V) (w w' : World V) (k : DynKey) : Prop :=
  match S.sectionType k.kind with
  | .input => w'.inputs 0 k = w.inputs 0 k
  | .interned => w'.internedAt S k = w.internedAt S k
  | .derived => True

/-- **What the records of `w'` stand on has come along**: the dependencies they have recorded, and,
for a record that was verified at the last revision, what its evaluation over the slots of `w`
reads. -/
structure World.Intact (T : Spec V) (w w' : World V) : Prop where
  recorded : ∀ q R, w'.state 0 q = .ready R → ∀ d ∈ R.deps, w.Retains T.schema w' d
  evaluated : ∀ q R, w'.state 0 q = .ready R → R.verifiedAt = w.rev 0 →
    ∀ d, DependsOn (T.env w ((w.inputs 0).get)) q d → w.Retains T.schema w' d

section cut

variable {T : Spec V} {p : Past V} {w w' : World V}

theorem World.Retains.input {S : Schema V} {k : DynKey} (h : w.Retains S w' k)
    (hk : S.sectionType k.kind = .input) : w'.inputs 0 k = w.inputs 0 k := by
  unfold Retains at h
  rwa [hk] at h

theorem World.Retains.interned {S : Schema V} {k : DynKey} (h : w.Retains S w' k)
    (hk : S.sectionType k.kind = .interned) : w'.internedAt S k = w.internedAt S k := by
  unfold Retains at h
  rwa [hk] at h

/-! ## 2. The past of what has come along -/

open Classical in
/-- The past `p` of the database of `w`, for what of it has come to `w'`: without the slots that
have not, and the answers of the last revision that are not right without them. -/
noncomputable def Past.cut (T : Spec V) (p : Past V) (w w' : World V) : Past V :=
  let content := fun r k => if w'.inputs 0 k = w.inputs 0 k then p.content r k else none
  { settled := p.settled
    content
    answer := fun q r => (p.answer q r).filter fun a =>
      decide (r = w.rev 0 → Yields (T.env w' (content r)) q a) }

theorem Past.cut_content (T : Spec V) (p : Past V) {w w' : World V} {k : DynKey}
    (h : w'.inputs 0 k = w.inputs 0 k) (r : Revision) :
    (p.cut T w w').content r k = p.content r k := if_pos h

theorem Past.cut_answer {q : DynKey} {r : Revision} {a : PicanteResult (Option V)} :
    (p.cut T w w').answer q r = some a ↔
      p.answer q r = some a ∧ (r = w.rev 0 → T.Right (p.cut T w w') w' r q a) := by
  unfold Past.cut
  simp only [Option.filter_eq_some_iff, decide_eq_true_eq, Spec.Right]

/-- A slot that has not come along is empty. -/
theorem World.CutFrom.dropped (h : w.CutFrom w') {k : DynKey}
    (hk : w'.inputs 0 k ≠ w.inputs 0 k) : w'.inputs 0 k = none := by
  cases he : w'.inputs 0 k with
  | none => rfl
  | some e =>
    rw [he] at hk
    exact absurd (h.inputs k e he).symm hk

/-- **A value stays right** if all that it depends on has come along. -/
theorem right_cut (hprop : ∀ q, (T.body q).Propagates) {r : Revision} {q : DynKey}
    {x : Option V} (h : T.Right p w r q (.ok x))
    (hretains : ∀ d, DependsOn (T.env w (p.content r)) q d → w.Retains T.schema w' d) :
    T.Right (p.cut T w w') w' r q (.ok x) := by
  refine Yields.of_agree hprop h ⟨rfl, rfl, rfl, fun d hd hbase => ?_⟩
  simp only [Spec.env] at hbase ⊢
  cases htype : T.schema.sectionType d.kind with
  | input =>
    simp only
    rw [Past.cut_content T p ((hretains d hd).input htype)]
  | interned =>
    simp only
    rw [(hretains d hd).interned htype]
  | derived => simp [htype] at hbase

/-- What was told of a key that has come along. -/
theorem told_cut {r : Revision} {d : DynKey} {a : PicanteResult (Option V)}
    (h : T.told p w d r = some a) (hretains : w.Retains T.schema w' d)
    (hright : T.Derived d → r = w.rev 0 → T.Right (p.cut T w w') w' r d a) :
    T.told (p.cut T w w') w' d r = some a := by
  cases htype : T.schema.sectionType d.kind with
  | input =>
    rw [Spec.told_input htype] at h ⊢
    rw [Past.cut_content T p (hretains.input htype)]
    exact h
  | interned =>
    rw [Spec.told_interned htype] at h ⊢
    rw [hretains.interned htype]
    exact h
  | derived =>
    rw [Spec.told_derived htype] at h ⊢
    exact Past.cut_answer.mpr ⟨h, hright htype⟩

/-- What was told at the current revision is right. -/
theorem Spec.Coherent.told_right (h : T.Coherent p w) {d : DynKey}
    {a : PicanteResult (Option V)} (ha : T.told p w d (w.rev 0) = some a) :
    T.Right p w (w.rev 0) d a := by
  cases htype : T.schema.sectionType d.kind with
  | input =>
    rw [told_input htype] at ha
    split at ha <;> cases ha
    exact Right.input htype _
  | interned =>
    rw [told_interned htype] at ha
    obtain ⟨v, hv, rfl⟩ := Option.map_eq_some_iff.mp ha
    exact Right.interned htype hv _
  | derived =>
    rw [told_derived htype] at ha
    exact (h.current d a ha).1

variable (hprop : ∀ q, (T.body q).Propagates) (hc : T.Coherent p w) (hcut : w.CutFrom w')
  (hintact : w.Intact T w')
include hprop hc hcut hintact

/-- A record that was verified at the last revision is still right. -/
theorem ready_right {q : DynKey} {R : ReadyRecord V} (hs : w'.state 0 q = .ready R)
    (hver : R.verifiedAt = w.rev 0) :
    T.Right (p.cut T w w') w' (w.rev 0) q (.ok (some R.value)) :=
  have hok := hc.ready 0 q R (hcut.ready q R hs)
  have hcontent : p.content (w.rev 0) = (w.inputs 0).get := funext (hc.content (hver ▸ hok.settled))
  right_cut hprop (hok.right hver) fun d hd => hintact.evaluated q R hs hver d (hcontent ▸ hd)

/-- **The evidence of a record comes along with it.** -/
theorem evidence_cut {q : DynKey} {R : ReadyRecord V} (hs : w'.state 0 q = .ready R)
    (h : T.Evidence p w q R.value R.deps R.changedAt R.verifiedAt) :
    T.Evidence (p.cut T w w') w' q R.value R.deps R.changedAt R.verifiedAt := by
  obtain ⟨s, obs, hcs, hsv, hdeps, hfollows, hrec⟩ := h
  refine ⟨s, obs, hcs, hsv, hdeps, hfollows, fun da hda => ?_⟩
  have hdep : da.1 ∈ R.deps := hdeps ▸ List.mem_map_of_mem hda
  refine told_cut (hrec da hda) (hintact.recorded q R hs _ hdep) fun _ hlast => ?_
  subst hlast
  -- the record was verified at the last revision, and all it has read was right then
  have hok := hc.ready 0 q R (hcut.ready q R hs)
  have hver : R.verifiedAt = w.rev 0 := Nat.le_antisymm hok.verified_le hsv
  have hcontent : p.content (w.rev 0) = (w.inputs 0).get :=
    funext (hc.content (hver ▸ hok.settled))
  have hreads : OkReads (T.env w (p.content (w.rev 0))) (T.body q) obs (.done (.ok R.value)) :=
    ⟨hfollows, fun da' hda' => ⟨hc.told_right (hrec da' hda'),
      (hprop q).obs_ok hfollows da' hda'⟩⟩
  obtain ⟨x, hx⟩ := (hreads.2 da hda).2
  have hconsults : Consults (T.env w (p.content (w.rev 0))) q da.1 :=
    consults_of_mem (a := da.2) hreads hda
  rw [hx]
  exact right_cut hprop (hx ▸ (hreads.2 da hda).1) fun d hd =>
    hintact.evaluated q R hs hver d (hcontent ▸ .head hconsults hd)

/-- **A world that was cut is coherent** if what its records stand on has come along. -/
theorem coherent_cut (hext : Past.Extends .init p) (acc : Account) (hacc : acc ≠ .answers) :
    Spec.Coherent { T with account := acc } (p.cut T w w') w' := by
  have hview : ∀ i, i ≠ 0 → w'.views i = (World.init : World V).views i := hcut.blank
  have hvacant : ∀ i q, i ≠ 0 → w'.state i q = .vacant := by
    intro i q hi
    unfold World.state World.cell
    rw [hview i hi]
    rfl
  have hblank : ∀ i k, i ≠ 0 → w'.inputs i k = none := by
    intro i k hi
    unfold World.inputs
    rw [hview i hi]
    rfl
  have hrev : ∀ i, i ≠ 0 → w'.rev i = 0 := by
    intro i hi
    unfold World.rev
    rw [hview i hi]
    rfl
  constructor
  case nonempty => exact hcut.viewCount ▸ Nat.one_pos
  case live => rw [hcut.origin]
  case family => exact fun i => (hcut.scope i).trans (congrArg Prod.fst hcut.origin).symm
  case settled_le => exact hcut.rev ▸ hc.settled_le
  case snapshot_le => exact fun i hi => hrev i hi ▸ Nat.zero_le _
  case interned => exact hcut.fresh
  case touch_le =>
    intro i k
    rcases eq_or_ne i 0 with rfl | hi
    · by_cases hk : w'.inputs 0 k = w.inputs 0 k
      · have htouch := hc.touch_le 0 k
        unfold Inputs.touch at htouch ⊢
        rw [hk, hcut.rev]
        exact htouch
      · unfold Inputs.touch
        rw [hcut.dropped hk]
        exact Nat.zero_le _
    · unfold Inputs.touch
      rw [hblank i k hi]
      exact Nat.zero_le _
  case steady =>
    intro i k r hr hri ht
    rcases eq_or_ne i 0 with rfl | hi
    · by_cases hk : w'.inputs 0 k = w.inputs 0 k
      · have hsteady := hc.steady 0 k r hr (hcut.rev ▸ hri)
        unfold Inputs.touch Inputs.get at *
        rw [hk] at ht ⊢
        exact (Past.cut_content T p hk r).trans (hsteady ht)
      · have hnone : (p.cut T w w').content r k = none := if_neg hk
        unfold Inputs.get
        rw [hnone, hcut.dropped hk]
        rfl
    · -- nothing was there at revision 0
      obtain rfl : r = 0 := Nat.le_zero.mp (hrev i hi ▸ hri)
      have hzero : p.content 0 k = none := congrFun (hext.content 0 (Nat.le_refl _)) k
      have hnone : (p.cut T w w').content 0 k = none := by
        by_cases hk : w'.inputs 0 k = w.inputs 0 k
        · exact (Past.cut_content T p hk 0).trans hzero
        · exact if_neg hk
      unfold Inputs.get
      rw [hnone, hblank i k hi]
      rfl
  case ready =>
    intro i q R hs
    rcases eq_or_ne i 0 with rfl | hi
    · have hok := hc.ready 0 q R (hcut.ready q R hs)
      refine ⟨hok.changed_le, hok.settled, hcut.rev ▸ hok.verified_le, fun hver => ?_, ?_,
        fun hf => evidence_cut hprop hc hcut hintact hs (hok.evidence hf)⟩
      · rw [hcut.rev] at hver ⊢
        exact ready_right hprop hc hcut hintact hs hver
      · rw [hcut.rev]
        exact fun s hs' hlt b hb => hok.honest s hs' hlt b (Past.cut_answer.mp hb).1
    · rw [hvacant i q hi] at hs
      cases hs
  case poisoned =>
    intro i q e ver hs
    rcases eq_or_ne i 0 with rfl | hi
    · exact absurd hs (hcut.poisoned q e ver)
    · rw [hvacant i q hi] at hs
      cases hs
  case shared =>
    intro q F hF
    rw [hcut.shared] at hF
    cases hF
  case entries =>
    intro e
    rw [hcut.registry]
    trivial
  case filed =>
    intro key e hf
    rw [hcut.registry] at hf
    cases hf
  case ready_answered =>
    intro q R hs hver
    rw [hcut.rev] at hver ⊢
    exact Past.cut_answer.mpr ⟨hc.ready_answered q R (hcut.ready q R hs) hver,
      fun _ => ready_right hprop hc hcut hintact hs hver⟩
  case poison_answered => exact fun h => absurd h hacc
  case answered =>
    intro q r a ha
    obtain ⟨hle, out, hout, -⟩ := hc.answered q r a (Past.cut_answer.mp ha).1
    refine ⟨hle, out, hout, .inr fun F hF => ?_⟩
    rw [hcut.shared] at hF
    cases hF
  case current =>
    intro q a ha
    rw [hcut.rev] at ha ⊢
    obtain ⟨hold, hright⟩ := Past.cut_answer.mp ha
    exact ⟨hright rfl, fun R hs => (hc.current q a hold).2 R (hcut.ready q R hs)⟩

end cut

/-- And none of its records is foreign. -/
theorem World.CutFrom.native {w w' : World V} (h : w.CutFrom w') (hn : w.Native) : w'.Native where
  state q := by
    cases hs : w'.state 0 q with
    | ready R =>
      rw [h.rev]
      exact hn.ready (h.ready q R hs)
    | vacant | running _ _ | poisoned _ _ => trivial
  shared s q F hF := by
    rw [h.shared] at hF
    cases hF
  leaders e := by
    rw [h.registry]
    rfl
  entries e := by
    rw [h.registry]
    trivial
  log e he := by
    rw [h.log] at he
    cases he

end Picante

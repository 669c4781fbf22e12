/-
# A coherent world

`Coherent` is the invariant of the shared state: what is cached, whether in a cell, in the
shared cache or in the in-flight registry, is right at the revision it was verified at, and its
change stamp is honest about the past of the database.  A record that the database computed
itself carries its evidence with it; a foreign one carries none.

`Covered` is the point on which the shared cache hangs.  When the database is answered for a
key, either its own reads derive the answer, and then a check of any older record of the key
meets what was read; or no older record of its own is left in the cache to be checked.

`Later` is how the state may move on while an access looks away: everything an access relies on
is stated in terms that `Later` keeps (section 3).  `Coherent.step` is the frame rule: a step
has to account for the items it adds, and for nothing else.
-/
import Picante.Coherence.Past

namespace Picante

open ReadProg Stamp

variable {V : Type}

/-! ## 1. Coherence -/

/-- Every record of `q` that the database computed and left in the shared cache was verified at
`r` or later. -/
def World.NoOlder (w : World V) (q : DynKey) (r : Revision) : Prop :=
  ∀ F, w.shared (w.scope 0) q = some F → F.foreign = false → r ≤ F.verifiedAt

namespace Spec

section items

variable (T : Spec V) (p : Past V) (w : World V)

/-- The outcome `out` of `q` at `r` is derived from recorded reads, or no older record of the
database is left. -/
def Covered (q : DynKey) (r : Revision) (out : PicanteResult V) : Prop :=
  Derives (T.told p w) r (T.body q) out ∨ w.NoOlder q r

/-- The value `v` of `q` with the stamp `c` is right at revision `r`, and its stamp honest. -/
structure Sound (r : Revision) (q : DynKey) (v : V) (c : Revision) : Prop where
  changed_le : c ≤ r
  right : T.Right p w r q (.ok (some v))
  honest : Honest (p.answer q) r (.ok (some v)) c

/-- A ready cell of view `i`. -/
structure ReadyOk (i : ViewId) (q : DynKey) (R : ReadyRecord V) : Prop where
  changed_le : R.changedAt ≤ R.verifiedAt
  settled : R.verifiedAt ≤ p.settled
  verified_le : R.verifiedAt ≤ w.rev i
  right : R.verifiedAt = w.rev i → T.Right p w (w.rev i) q (.ok (some R.value))
  honest : Honest (p.answer q) (w.rev i) (.ok (some R.value)) R.changedAt
  evidence : R.foreign = false → T.Evidence p w q R.value R.deps R.changedAt R.verifiedAt

/-- A poisoned cell. -/
def PoisonOk (q : DynKey) (e : PicanteError) (ver : Revision) : Prop :=
  ver ≤ p.settled ∧ T.Fails p w ver q e

/-- A record of the shared cache. -/
structure SharedOk (q : DynKey) (F : SharedCacheRecord V) : Prop where
  settled : F.verifiedAt ≤ p.settled
  sound : T.Sound p w F.verifiedAt q F.value F.changedAt
  evidence : F.foreign = false → T.Evidence p w q F.value F.deps F.changedAt F.verifiedAt
  native : F.foreign = false →
    Honest (p.answer q) (F.verifiedAt + 1) (.ok (some F.value)) F.changedAt

/-- An entry of the registry: what a follower takes over from it. -/
def EntryOk (e : InFlightEntry V) : Prop :=
  match e.state with
  | .done v deps c =>
    e.key.revision ≤ p.settled ∧ T.Sound p w e.key.revision e.key.query v c ∧
      w.NoOlder e.key.query e.key.revision ∧
      (e.leader = 0 → T.Evidence p w e.key.query v deps c e.key.revision)
  | .failed err =>
    e.key.revision ≤ p.settled ∧ T.Fails p w e.key.revision e.key.query err ∧
      (T.account = .answers → e.leader = 0 →
        T.Covered p w e.key.query e.key.revision (.error err))
  | _ => True

end items

/-- **The invariant of the shared state.** -/
structure Coherent (T : Spec V) (p : Past V) (w : World V) : Prop where
  nonempty : 0 < w.viewCount
  live : (w.origin 0).2 = false
  family : ∀ i, w.scope i = (w.origin 0).1
  settled_le : p.settled ≤ w.rev 0
  snapshot_le : ∀ i, i ≠ 0 → w.rev i ≤ p.settled
  interned : ∀ kind, (w.interned kind).Fresh
  touch_le : ∀ i k, (w.inputs i).touch k ≤ w.rev i
  steady : ∀ i k r, r ≤ p.settled → r ≤ w.rev i → (w.inputs i).touch k ≤ r →
    p.content r k = (w.inputs i).get k
  ready : ∀ i q R, w.state i q = .ready R → T.ReadyOk p w i q R
  poisoned : ∀ i q e ver, w.state i q = .poisoned e ver → T.PoisonOk p w q e ver
  shared : ∀ q F, w.shared (w.scope 0) q = some F → T.SharedOk p w q F
  entries : ∀ e, T.EntryOk p w (w.registry.entries e)
  filed : ∀ key e, w.registry.filed key = some e →
    e < w.registry.nextEntry ∧ (w.registry.entries e).key = key
  ready_answered : ∀ q R, w.state 0 q = .ready R → R.verifiedAt = w.rev 0 →
    p.answer q (w.rev 0) = some (.ok (some R.value))
  poison_answered : T.account = .answers → ∀ q e, w.state 0 q = .poisoned e (w.rev 0) →
    p.answer q (w.rev 0) = some (.error e)
  answered : ∀ q r a, p.answer q r = some a →
    r ≤ p.settled ∧ ∃ out, a = out.map some ∧ T.Covered p w q r out
  current : ∀ q a, p.answer q (w.rev 0) = some a →
    T.Right p w (w.rev 0) q a ∧ ∀ R, w.state 0 q = .ready R → R.verifiedAt = w.rev 0

variable {T : Spec V} {p p' p'' : Past V} {w w' w'' : World V}

/-- All views share one scope. -/
theorem Coherent.scope (h : T.Coherent p w) (i : ViewId) : w.scope i = w.scope 0 :=
  (h.family i).trans (h.family 0).symm

theorem Coherent.rev_le (h : T.Coherent p w) (i : ViewId) : w.rev i ≤ w.rev 0 := by
  rcases Nat.eq_zero_or_pos i with rfl | hi
  · exact Nat.le_refl _
  · exact Nat.le_trans (h.snapshot_le i (Nat.ne_of_gt hi)) h.settled_le

/-- **A new database is coherent.** -/
theorem coherent_init (T : Spec V) : T.Coherent .init .init where
  nonempty := Nat.one_pos
  live := rfl
  family _ := rfl
  settled_le := Nat.le_refl 0
  snapshot_le _ _ := Nat.le_refl 0
  interned _ := InternedIngredient.fresh_empty
  touch_le _ _ := Nat.le_refl 0
  steady _ _ _ _ _ _ := rfl
  ready _ _ _ := nofun
  poisoned _ _ _ _ := nofun
  shared _ _ := nofun
  entries _ := trivial
  filed _ _ := nofun
  ready_answered _ _ := nofun
  poison_answered _ _ _ := nofun
  answered _ _ _ := nofun
  current _ _ := nofun

/-! ## 2. What an input and an interned value hold -/

/-- The content of a slot, at a settled revision. -/
theorem Coherent.content (h : T.Coherent p w) {i : ViewId} (hr : w.rev i ≤ p.settled)
    (k : DynKey) : p.content (w.rev i) k = (w.inputs i).get k :=
  h.steady i k (w.rev i) hr (Nat.le_refl _) (h.touch_le i k)

theorem Coherent.now_input (h : T.Coherent p w) {i : ViewId} (hr : w.rev i ≤ p.settled)
    {d : DynKey} (hd : T.schema.sectionType d.kind = .input) :
    T.Now p w i (w.rev i) d (.ok ((w.inputs i).get d)) ((w.inputs i).touch d) := by
  have hcontent := h.content hr d
  constructor
  · exact hcontent ▸ Right.input hd (w.rev i)
  · -- the slot has not changed since its stamp
    intro s hs hsr b hb
    have hle : s ≤ p.settled := Nat.le_trans (Nat.le_of_lt hsr) hr
    rw [told_input hd, if_pos hle, h.steady i d s hle (Nat.le_of_lt hsr) hs] at hb
    exact (Option.some.inj hb).symm
  · intro _
    rw [told_input hd, if_pos hr, hcontent]

theorem now_interned {d : DynKey} (hd : T.schema.sectionType d.kind = .interned) {v : V}
    (hv : w.internedAt T.schema d = some v) (i : ViewId) (r : Revision) :
    T.Now p w i r d (.ok (some v)) 0 := by
  have htold : ∀ s, T.told p w d s = some (.ok (some v)) := by
    intro s
    rw [told_interned hd, hv]
    rfl
  refine ⟨Right.interned hd hv r, fun s _ _ b hb => ?_, fun _ => htold r⟩
  rw [htold s] at hb
  exact (Option.some.inj hb).symm

/-- A sound value of a derived query is what the query holds. -/
theorem Sound.now {i : ViewId} {r : Revision} {q : DynKey} {v : V} {c : Revision}
    (h : T.Sound p w r q v c) (hq : T.Derived q)
    (ha : i = 0 → p.answer q r = some (.ok (some v))) :
    T.Now p w i r q (.ok (some v)) c :=
  ⟨h.right, told_derived hq ▸ h.honest, fun hi => told_derived (w := w) hq ▸ ha hi⟩

/-! ## 3. Moving on -/

/-- How the state may have moved on, for an access that was looking away. -/
structure Later (T : Spec V) (p : Past V) (w : World V) (p' : Past V) (w' : World V) :
    Prop where
  past : p.Extends p'
  settled_le : p.settled ≤ w.rev 0
  viewCount : w.viewCount ≤ w'.viewCount
  rev : ∀ i, i < w.viewCount → w'.rev i = w.rev i ∨ p.settled < w'.rev i
  rev_le : ∀ i, i < w.viewCount → w.rev i ≤ w'.rev i
  answer : ∀ q r a, p.answer q r = some a → p'.answer q r = some a
  answer_past : ∀ q r, r < w.rev 0 → p'.answer q r = p.answer q r
  interned : ∀ k v, w.internedAt T.schema k = some v → w'.internedAt T.schema k = some v
  stale : ∀ i, i < w.viewCount → w'.rev i = w.rev i → ∀ q R, w'.state i q = .ready R →
    R.verifiedAt ≠ w.rev i → w.state i q = .ready R
  native : ∀ q F, w'.shared (w'.scope 0) q = some F → F.foreign = false →
    w.shared (w.scope 0) q = some F ∨ p.settled ≤ F.verifiedAt
  nextEntry : w.registry.nextEntry ≤ w'.registry.nextEntry
  entries : ∀ e, e < w.registry.nextEntry →
    (w'.registry.entries e).key = (w.registry.entries e).key ∧
      (w'.registry.entries e).leader = (w.registry.entries e).leader

namespace Later

variable (hl : Later T p w p' w')
include hl

theorem extends_env {r : Revision} (hr : r ≤ p.settled) :
    (T.env w (p.content r)).Extends (T.env w' (p'.content r)) := by
  refine ⟨rfl, rfl, rfl, fun d x hx => ?_⟩
  rw [hl.past.content r hr]
  simp only [env] at hx ⊢
  cases hd : T.schema.sectionType d.kind with
  | input => rw [hd] at hx; exact hx
  | derived => rw [hd] at hx; exact hx
  | interned =>
    rw [hd] at hx
    obtain ⟨v, hv, rfl⟩ := Option.map_eq_some_iff.mp hx
    simp only [hl.interned d v hv, Option.map_some]

theorem right {r : Revision} (hr : r ≤ p.settled) {d : DynKey}
    {a : PicanteResult (Option V)} (h : T.Right p w r d a) : T.Right p' w' r d a :=
  Yields.mono (hl.extends_env hr) h

theorem fails {r : Revision} (hr : r ≤ p.settled) {q : DynKey} {e : PicanteError}
    (h : T.Fails p w r q e) : T.Fails p' w' r q e :=
  Account.Fails.mono (hl.extends_env hr) h

theorem told {d : DynKey} {r : Revision} {a : PicanteResult (Option V)}
    (h : T.told p w d r = some a) : T.told p' w' d r = some a := by
  cases hd : T.schema.sectionType d.kind with
  | input =>
    rw [told_input hd] at h ⊢
    split at h
    · next hr => rwa [if_pos (Nat.le_trans hr hl.past.settled), hl.past.content r hr]
    · cases h
  | derived =>
    rw [told_derived hd] at h ⊢
    exact hl.answer d r a h
  | interned =>
    rw [told_interned hd] at h ⊢
    obtain ⟨v, hv, rfl⟩ := Option.map_eq_some_iff.mp h
    rw [hl.interned d v hv]
    rfl

theorem recorded {s : Revision} {obs : Obs DynKey PicanteError (Option V)}
    (h : Recorded (T.told p w) s obs) : Recorded (T.told p' w') s obs :=
  fun da hda => hl.told (h da hda)

theorem derives {s : Revision} {q : Query V} {out : PicanteResult V}
    (h : Derives (T.told p w) s q out) : Derives (T.told p' w') s q out := by
  obtain ⟨obs, hf, hrec⟩ := h
  exact ⟨obs, hf, hl.recorded hrec⟩

theorem evidence {q : DynKey} {v : V} {deps : List Dep} {c ver : Revision}
    (h : T.Evidence p w q v deps c ver) : T.Evidence p' w' q v deps c ver := by
  obtain ⟨s, obs, hc, hs, hdeps, hf, hrec⟩ := h
  exact ⟨s, obs, hc, hs, hdeps, hf, hl.recorded hrec⟩

theorem honest {q : DynKey} {r c : Revision} {a : PicanteResult (Option V)}
    (hr : r ≤ w.rev 0) (h : Honest (p.answer q) r a c) : Honest (p'.answer q) r a c :=
  h.congr fun s hs => hl.answer_past q s (Nat.lt_of_lt_of_le hs hr)

/-- The past of a key that was told something stays what it is. -/
theorem honest_told {d : DynKey} {r s c : Revision} {a b : PicanteResult (Option V)}
    (hr : r ≤ p.settled) (hb : T.told p w d s = some b)
    (h : Honest (T.told p w d) r a c) : Honest (T.told p' w' d) r a c := by
  refine h.congr fun t ht => ?_
  cases hd : T.schema.sectionType d.kind with
  | input =>
    have hle : t ≤ p.settled := Nat.le_trans (Nat.le_of_lt ht) hr
    rw [told_input hd, told_input hd, if_pos hle,
      if_pos (Nat.le_trans hle hl.past.settled), hl.past.content t hle]
  | derived =>
    rw [told_derived hd, told_derived hd]
    exact hl.answer_past d t (Nat.lt_of_lt_of_le ht (Nat.le_trans hr hl.settled_le))
  | interned =>
    rw [told_interned hd] at hb
    obtain ⟨v, hv, -⟩ := Option.map_eq_some_iff.mp hb
    rw [told_interned hd, told_interned hd, hv, hl.interned d v hv]

theorem noOlder {q : DynKey} {r : Revision} (hr : r ≤ p.settled) (h : w.NoOlder q r) :
    w'.NoOlder q r := by
  intro F hF hn
  rcases hl.native q F hF hn with hold | hnew
  · exact h F hold hn
  · exact Nat.le_trans hr hnew

theorem covered {q : DynKey} {r : Revision} (hr : r ≤ p.settled) {out : PicanteResult V}
    (h : T.Covered p w q r out) : T.Covered p' w' q r out :=
  h.imp hl.derives (hl.noOlder hr)

theorem sound {q : DynKey} {r c : Revision} {v : V} (hr : r ≤ p.settled)
    (h : T.Sound p w r q v c) : T.Sound p' w' r q v c :=
  ⟨h.changed_le, hl.right hr h.right, hl.honest (Nat.le_trans hr hl.settled_le) h.honest⟩

theorem now {i : ViewId} {d : DynKey} {r s c : Revision} {a b : PicanteResult (Option V)}
    (hr : r ≤ p.settled) (hb : T.told p w d s = some b) (h : T.Now p w i r d a c) :
    T.Now p' w' i r d a c :=
  ⟨hl.right hr h.right, hl.honest_told hr hb h.honest, fun hi => hl.told (h.told hi)⟩

omit hl in
/-- Moving on twice. -/
theorem trans (h : T.Later p w p' w') (h' : T.Later p' w' p'' w'') (h0 : 0 < w.viewCount) :
    T.Later p w p'' w'' where
  past := h.past.trans h'.past
  settled_le := h.settled_le
  viewCount := Nat.le_trans h.viewCount h'.viewCount
  rev i hi := by
    rcases h'.rev i (Nat.lt_of_lt_of_le hi h.viewCount) with hsame | hmoved
    · rw [hsame]
      exact h.rev i hi
    · exact .inr (Nat.lt_of_le_of_lt h.past.settled hmoved)
  rev_le i hi :=
    Nat.le_trans (h.rev_le i hi) (h'.rev_le i (Nat.lt_of_lt_of_le hi h.viewCount))
  answer q r a ha := h'.answer q r a (h.answer q r a ha)
  answer_past q r hr :=
    (h'.answer_past q r (Nat.lt_of_lt_of_le hr (h.rev_le 0 h0))).trans (h.answer_past q r hr)
  interned k v hv := h'.interned k v (h.interned k v hv)
  stale i hi hrev q R hs hne := by
    have hi' := Nat.lt_of_lt_of_le hi h.viewCount
    have hmid : w'.rev i = w.rev i :=
      Nat.le_antisymm (hrev ▸ h'.rev_le i hi') (h.rev_le i hi)
    have hs' := h'.stale i hi' (hrev.trans hmid.symm) q R hs (hmid ▸ hne)
    exact h.stale i hi hmid q R hs' hne
  native q F hF hn := by
    rcases h'.native q F hF hn with hold | hnew
    · exact h.native q F hold hn
    · exact .inr (Nat.le_trans h.past.settled hnew)
  nextEntry := Nat.le_trans h.nextEntry h'.nextEntry
  entries e he := by
    obtain ⟨hkey, hlead⟩ := h.entries e he
    obtain ⟨hkey', hlead'⟩ := h'.entries e (Nat.lt_of_lt_of_le he h.nextEntry)
    exact ⟨hkey'.trans hkey, hlead'.trans hlead⟩

theorem poisonOk {q : DynKey} {e : PicanteError} {ver : Revision}
    (h : T.PoisonOk p w q e ver) : T.PoisonOk p' w' q e ver :=
  ⟨Nat.le_trans h.1 hl.past.settled, hl.fails h.1 h.2⟩

theorem readyOk {i : ViewId} {q : DynKey} {R : ReadyRecord V} (hrev : w'.rev i = w.rev i)
    (hle : w.rev i ≤ w.rev 0) (h : T.ReadyOk p w i q R) : T.ReadyOk p' w' i q R where
  changed_le := h.changed_le
  settled := Nat.le_trans h.settled hl.past.settled
  verified_le := hrev ▸ h.verified_le
  right hver := by
    rw [hrev] at hver ⊢
    exact hl.right (hver ▸ h.settled) (h.right hver)
  honest := hrev ▸ hl.honest hle h.honest
  evidence hn := hl.evidence (h.evidence hn)

theorem entryOk {e e' : InFlightEntry V} (hstate : e'.state = e.state) (hkey : e'.key = e.key)
    (hleader : e'.leader = e.leader) (h : T.EntryOk p w e) : T.EntryOk p' w' e' := by
  unfold EntryOk at h ⊢
  rw [hstate, hkey, hleader]
  cases hs : e.state with
  | done v deps c =>
    rw [hs] at h
    obtain ⟨hset, hsound, hold, hev⟩ := h
    exact ⟨Nat.le_trans hset hl.past.settled, hl.sound hset hsound, hl.noOlder hset hold,
      fun h0 => hl.evidence (hev h0)⟩
  | failed err =>
    rw [hs] at h
    obtain ⟨hset, hfails, hcov⟩ := h
    exact ⟨Nat.le_trans hset hl.past.settled, hl.fails hset hfails,
      fun ha h0 => hl.covered hset (hcov ha h0)⟩
  | running => trivial
  | cancelled => trivial

end Later

/-! ## 4. The frame rule -/

end Spec

/-- The worlds agree on what no access changes. -/
structure World.Fixed (w w' : World V) : Prop where
  rev : ∀ i, w'.rev i = w.rev i
  scope : ∀ i, w'.scope i = w.scope i
  origin : ∀ i, w'.origin i = w.origin i
  inputs : ∀ i, w'.inputs i = w.inputs i
  interned : w'.interned = w.interned
  viewCount : w'.viewCount = w.viewCount

namespace World.Fixed

variable {w w' w'' : World V}

theorem refl (w : World V) : w.Fixed w :=
  ⟨fun _ => rfl, fun _ => rfl, fun _ => rfl, fun _ => rfl, rfl, rfl⟩

theorem of_same (h : w.Same w') : w.Fixed w' :=
  ⟨h.rev, h.scope, h.origin, h.inputs, h.interned, h.viewCount⟩

theorem trans (h : w.Fixed w') (h' : w'.Fixed w'') : w.Fixed w'' :=
  ⟨fun i => (h'.rev i).trans (h.rev i), fun i => (h'.scope i).trans (h.scope i),
    fun i => (h'.origin i).trans (h.origin i), fun i => (h'.inputs i).trans (h.inputs i),
    h'.interned.trans h.interned, h'.viewCount.trans h.viewCount⟩

theorem internedAt (h : w.Fixed w') (S : Schema V) (k : DynKey) :
    w'.internedAt S k = w.internedAt S k := by
  simp only [World.internedAt, h.interned]

theorem setCell (w : World V) (i : ViewId) (k : DynKey) (st : ErasedState V) :
    w.Fixed (w.setCell i k st) where
  rev _ := World.rev_setCell ..
  scope _ := World.scope_setCell ..
  origin _ := World.origin_setCell ..
  inputs _ := World.inputs_setCell ..
  interned := rfl
  viewCount := rfl

theorem notifyCell (w : World V) (i : ViewId) (k : DynKey) : w.Fixed (w.notifyCell i k) where
  rev _ := World.rev_notifyCell ..
  scope _ := World.scope_notifyCell ..
  origin _ := World.origin_notifyCell ..
  inputs _ := World.inputs_notifyCell ..
  interned := rfl
  viewCount := rfl

theorem updateQueryDeps (w : World V) (i : ViewId) (k : DynKey) (deps : List Dep) :
    w.Fixed (w.modifyRuntime i (·.updateQueryDeps k deps)) where
  rev _ := World.rev_updateQueryDeps ..
  scope _ := World.scope_updateQueryDeps ..
  origin _ := World.origin_updateQueryDeps ..
  inputs _ := World.inputs_modifyRuntime ..
  interned := rfl
  viewCount := rfl

end World.Fixed

namespace Spec

variable {T : Spec V} {p p' : Past V} {w w' : World V}

/-- An answer that a step adds to the past: for now, right, covered, and the cell of its key
not holding an outdated record. -/
structure AnswerOk (T : Spec V) (p : Past V) (w : World V) (q : DynKey)
    (a : PicanteResult (Option V)) : Prop where
  settled : w.rev 0 ≤ p.settled
  right : T.Right p w (w.rev 0) q a
  covered : ∃ out, a = out.map some ∧ T.Covered p w q (w.rev 0) out
  current : ∀ R, w.state 0 q = .ready R → R.verifiedAt = w.rev 0

/-- **A step keeps the world coherent** if the items it adds are in order. -/
theorem Coherent.step (hc : T.Coherent p w) (hl : T.Later p w p' w') (hfix : w.Fixed w')
    (hset : p'.settled = p.settled)
    (hready : ∀ i q R, w'.state i q = .ready R → w.state i q = .ready R ∨
      T.ReadyOk p' w' i q R ∧ (i = 0 → R.verifiedAt = w.rev 0 →
        p'.answer q (w.rev 0) = some (.ok (some R.value))))
    (hpoison : ∀ i q e ver, w'.state i q = .poisoned e ver → w.state i q = .poisoned e ver ∨
      T.PoisonOk p' w' q e ver ∧ (T.account = .answers → i = 0 → ver = w.rev 0 →
        p'.answer q (w.rev 0) = some (.error e)))
    (hshared : ∀ q F, w'.shared (w'.scope 0) q = some F →
      w.shared (w.scope 0) q = some F ∨ T.SharedOk p' w' q F)
    (hentry : ∀ e, ((w'.registry.entries e).state = (w.registry.entries e).state ∧
        (w'.registry.entries e).key = (w.registry.entries e).key ∧
        (w'.registry.entries e).leader = (w.registry.entries e).leader) ∨
      T.EntryOk p' w' (w'.registry.entries e))
    (hfiled : ∀ key e, w'.registry.filed key = some e → w.registry.filed key = some e ∨
      e < w'.registry.nextEntry ∧ (w'.registry.entries e).key = key)
    (hanswer : ∀ q r a, p'.answer q r = some a → p.answer q r = some a ∨
      r = w.rev 0 ∧ T.AnswerOk p' w' q a) : T.Coherent p' w' where
  nonempty := hfix.viewCount ▸ hc.nonempty
  live := hfix.origin 0 ▸ hc.live
  family i := by rw [hfix.scope, hfix.origin]; exact hc.family i
  settled_le := by rw [hset, hfix.rev]; exact hc.settled_le
  snapshot_le i hi := by rw [hset, hfix.rev]; exact hc.snapshot_le i hi
  interned := hfix.interned ▸ hc.interned
  touch_le i k := by rw [hfix.inputs, hfix.rev]; exact hc.touch_le i k
  steady i k r hr hri ht := by
    rw [hset] at hr
    rw [hfix.rev] at hri
    rw [hfix.inputs] at ht ⊢
    rw [hl.past.content r hr]
    exact hc.steady i k r hr hri ht
  ready i q R hs := by
    rcases hready i q R hs with hold | ⟨hok, -⟩
    · exact hl.readyOk (hfix.rev i) (hc.rev_le i) (hc.ready i q R hold)
    · exact hok
  poisoned i q e ver hs := by
    rcases hpoison i q e ver hs with hold | ⟨hok, -⟩
    · exact hl.poisonOk (hc.poisoned i q e ver hold)
    · exact hok
  shared q F hF := by
    rcases hshared q F hF with hold | hok
    · have hF' := hc.shared q F hold
      refine ⟨Nat.le_trans hF'.settled hl.past.settled, hl.sound hF'.settled hF'.sound,
        fun hn => hl.evidence (hF'.evidence hn), fun hn => ?_⟩
      -- the answers of this very revision are right, and so is the record
      refine (hl.sound hF'.settled hF'.sound).honest.succ fun b hb => ?_
      rcases hanswer q F.verifiedAt b hb with hold' | ⟨hrev, hnew⟩
      · exact hF'.native hn F.verifiedAt hF'.sound.changed_le (Nat.lt_succ_self _) b hold'
      · have hright := hl.right hF'.settled hF'.sound.right
        have hrev' : F.verifiedAt = w'.rev 0 := hrev.trans (hfix.rev 0).symm
        exact (hrev' ▸ hnew.right : T.Right p' w' F.verifiedAt q b).functional hright
    · exact hok
  entries e := by
    rcases hentry e with ⟨hs, hk, hlead⟩ | hok
    · exact hl.entryOk hs hk hlead (hc.entries e)
    · exact hok
  filed key e hf := by
    rcases hfiled key e hf with hold | hok
    · obtain ⟨hlt, hkey⟩ := hc.filed key e hold
      exact ⟨Nat.lt_of_lt_of_le hlt hl.nextEntry, (hl.entries e hlt).1.trans hkey⟩
    · exact hok
  ready_answered q R hs hver := by
    rw [hfix.rev] at hver ⊢
    rcases hready 0 q R hs with hold | ⟨-, hans⟩
    · exact hl.answer _ _ _ (hc.ready_answered q R hold hver)
    · exact hans rfl hver
  poison_answered hacc q e hs := by
    rw [hfix.rev] at hs ⊢
    rcases hpoison 0 q e _ hs with hold | ⟨-, hans⟩
    · exact hl.answer _ _ _ (hc.poison_answered hacc q e hold)
    · exact hans hacc rfl rfl
  answered q r a ha := by
    rcases hanswer q r a ha with hold | ⟨hrev, hnew⟩
    · obtain ⟨hr, out, hout, hcov⟩ := hc.answered q r a hold
      exact ⟨Nat.le_trans hr hl.past.settled, out, hout, hl.covered hr hcov⟩
    · obtain rfl : r = w'.rev 0 := hrev.trans (hfix.rev 0).symm
      exact ⟨hnew.settled, hnew.covered⟩
  current q a ha := by
    rcases hanswer q _ a ha with hold | ⟨-, hnew⟩
    · rw [hfix.rev] at hold
      have hr := (hc.answered q _ a hold).1
      obtain ⟨hright, hcur⟩ := hc.current q a hold
      refine ⟨by rw [hfix.rev]; exact hl.right hr hright, fun R hs => ?_⟩
      -- an outdated record would have been there before
      refine Classical.byContradiction fun hne => hne ?_
      rw [hfix.rev]
      exact hcur R (hl.stale 0 hc.nonempty (hfix.rev 0) q R hs (hfix.rev 0 ▸ hne))
    · exact ⟨hnew.right, hnew.current⟩

end Spec

end Picante

/-
# What an access relies on

`PcOk` says for every program counter what an activation relies on while its view is at the
revision it has read: of a record under revalidation, which observations have been found to
stand; of a computation, what its program has read; of a result on its way, that it is sound.
An activation whose view has moved on relies on nothing (`LocalOk`).

`PcOk.later` is the non-interference half of the argument: whatever anyone else does (`Later`),
an access keeps what it relies on.  The other half, what its own steps establish, is
`Coherence/Step.lean`.
-/
import Picante.Coherence.Update

namespace Picante

open ReadProg Stamp

variable {V : Type}

/-- The previous value of the cell, kept while a shared record is revalidated. -/
def Source.prev : Source V → Previous V
  | .cell .. => none
  | .shared _ prev => prev

/-- The operation stores a record in the shared cache. -/
def MicroOp.putsShared : MicroOp V → Bool
  | .putShared _ => true
  | _ => false

namespace Spec

/-! ## 1. Local assertions -/

section assertions

variable (T : Spec V) (p : Past V) (w : World V) (i : ViewId) (r : Revision) (q : DynKey)

/-- The stamp of a previous value is honest. -/
def PrevOk (prev : Previous V) : Prop :=
  ∀ v c, prev = some (v, c) → c ≤ r ∧ Honest (p.answer q) r (.ok (some v)) c

/-- Of a record of the value `v`, the dependencies before `rest` have been found to stand. -/
def Checking (src : Source V) (rest : List Dep) (v : V) : Prop :=
  ∃ s pre post, src.changedAt ≤ s ∧ s < r ∧ src.deps = (pre ++ post).map Prod.fst ∧
    rest = post.map Prod.fst ∧ Follows (T.body q) (pre ++ post) (.done (.ok v)) ∧
    Recorded (T.told p w) s (pre ++ post) ∧
    ∀ da ∈ pre, T.Now p w i r da.1 da.2 src.changedAt

/-- What is known of the record itself: an outdated record still in the cell is the one under
revalidation; a shared record was verified by the database, and no answer since then was found
without recorded reads. -/
def SourceOk (v : V) : Source V → Prop
  | .cell .. => ∀ R, w.state i q = .ready R → R.verifiedAt ≠ r → R.value = v
  | .shared F _ =>
    F.value = v ∧ F.verifiedAt < r ∧
      Honest (p.answer q) (F.verifiedAt + 1) (.ok (some F.value)) F.changedAt ∧
      ∀ s a, s < r → p.answer q s = some a → s ≤ F.verifiedAt ∨
        ∃ out, a = out.map some ∧ Derives (T.told p w) s (T.body q) out

/-- A revalidation under way. -/
def RevalidateOk (src : Source V) (rest : List Dep) : Prop :=
  PrevOk p r q src.prev ∧ (src.foreign r = false → ∃ v,
    T.Checking p w i r q src rest v ∧ T.SourceOk p w i r q v src)

/-- What a program has read. -/
def ReadsOk (obs : Obs DynKey PicanteError (Option V)) (prog : Query V) : Prop :=
  T.account.Reads (T.env w (p.content r)) (T.body q) obs prog ∧
    (i = 0 → Recorded (T.told p w) r obs)

/-- A guard is for an entry of this very access. -/
def Guarded (guard : Option InFlightGuard) : Prop :=
  ∀ g, guard = some g → g.entry < w.registry.nextEntry ∧
    (w.registry.entries g.entry).key.revision = r ∧
    (w.registry.entries g.entry).key.query = q ∧ (w.registry.entries g.entry).leader = i

/-- The entry is for the query and the revision of the access. -/
def FollowsEntry (e : EntryId) : Prop :=
  e < w.registry.nextEntry ∧ (w.registry.entries e).key.revision = r ∧
    (w.registry.entries e).key.query = q

/-- A result is sound, or an error that is accounted for. -/
def ResultOk : AccessResult V → Prop
  | .ok (v, c) => T.Sound p w r q v c
  | .error e => T.Fails p w r q e

/-- A result of the database is on record. -/
def Answered : AccessResult V → Prop
  | .ok (v, _) => i = 0 → p.answer q r = some (.ok (some v))
  | .error e => T.account = .answers → i = 0 → p.answer q r = some (.error e)

/-- An operation of a straight-line part. -/
def OpOk (guard : Option InFlightGuard) : MicroOp V → Prop
  | .setCell (.ready R) =>
    R.verifiedAt = r ∧ T.Sound p w r q R.value R.changedAt ∧
      (R.foreign = false → T.Evidence p w q R.value R.deps R.changedAt r) ∧
      (i = 0 → T.Covered p w q r (.ok R.value))
  | .setCell (.poisoned e ver) =>
    ver = r ∧ T.Fails p w r q e ∧
      (T.account = .answers → i = 0 → T.Covered p w q r (.error e))
  | .setCell _ => False
  | .putShared F =>
    F.verifiedAt = r ∧ T.Sound p w r q F.value F.changedAt ∧
      (F.foreign = false → i = 0 ∧ T.Evidence p w q F.value F.deps F.changedAt r)
  | .setEntry (.done v deps c) =>
    Guarded w i r q guard ∧ T.Sound p w r q v c ∧ (i = 0 → T.Evidence p w q v deps c r)
  | .setEntry (.failed e) =>
    Guarded w i r q guard ∧ T.Fails p w r q e ∧
      (T.account = .answers → i = 0 → T.Covered p w q r (.error e))
  | .checked res => T.ResultOk p w r q res
  | .raise e => T.Fails p w r q e ∧ T.account ≠ .answers
  | _ => True

/-- A result is handed to followers only when no older record of the database is left in the
shared cache: after the publication there, or because none is left already. -/
def Published : List (MicroOp V) → Prop
  | [] => True
  | .putShared _ :: _ => True
  | .setEntry (.done ..) :: ops => w.NoOlder q r ∧ Published ops
  | _ :: ops => Published ops

/-- A straight-line part: what follows the update of the cell relies on its result being on
record. -/
structure FinishOk (guard : Option InFlightGuard) (ops : List (MicroOp V)) : Prop where
  shape : OpsOk ops
  each : ∀ op ∈ ops, T.OpOk p w i r q guard op
  answered : (∀ op ∈ ops, op.setsCell = false) → ∀ res, .checked res ∈ ops →
    T.Answered p i r q res
  poisons : ∀ e ver, .setCell (.poisoned e ver) ∈ ops → ∀ v c, .checked (.ok (v, c)) ∉ ops
  published : Published w r q ops

/-- What an activation at revision `r`, the one its view is at, relies on. -/
def PcOk (guard : Option InFlightGuard) : Pc V → Prop
  | .top | .listen | .observe _ | .parked _ | .attempt => True
  | .revalidate src rest => T.RevalidateOk p w i r q src rest
  | .touching src dep rest => T.RevalidateOk p w i r q src (dep :: rest) ∧ T.Derived dep
  | .reverify => ∀ R, w.state i q = .ready R → R.verifiedAt ≠ r →
      T.Right p w r q (.ok (some R.value)) ∧
        (i = 0 → Derives (T.told p w) r (T.body q) (.ok R.value))
  | .sharedGet prev | .lead prev => PrevOk p r q prev
  | .followReset e | .followListen e | .followRead e _ | .followParked e _ =>
    FollowsEntry w r q e
  | .computing prev prog deps =>
    PrevOk p r q prev ∧ Guarded w i r q guard ∧
      ((∃ obs, T.ReadsOk p w i r q obs prog ∧ deps = obs.map Prod.fst) ∨
        T.account ≠ .answers ∧ ∃ e, prog = .done (.error e) ∧ T.Fails p w r q e)
  | .reading prev d k deps =>
    PrevOk p r q prev ∧ Guarded w i r q guard ∧ T.Derived d ∧
      ∃ obs, T.ReadsOk p w i r q obs (.read d k) ∧ deps = obs.map Prod.fst ++ [d]
  | .finishing ops => T.FinishOk p w i r q guard ops

/-- **An activation is in order**: it is for a derived query, its revision is a settled one
that its view has reached, and while the view has not moved on it has what it relies on. -/
structure LocalOk (a : Activation V) : Prop where
  derived : T.Derived a.key
  settled : a.pc ≠ .top → a.rev ≤ p.settled
  rev_le : a.pc ≠ .top → a.rev ≤ w.rev i
  pc : a.rev = w.rev i → T.PcOk p w i a.rev a.key a.guard a.pc

end assertions

/-! ## 2. Nobody else takes away what an access relies on -/

section later

variable {T : Spec V} {p p' : Past V} {w w' : World V} {i : ViewId} {r : Revision} {q : DynKey}

theorem PrevOk.later (hl : T.Later p w p' w') (hr : r ≤ p.settled) {prev : Previous V}
    (h : PrevOk p r q prev) : PrevOk p' r q prev := by
  intro v c hprev
  obtain ⟨hc, hh⟩ := h v c hprev
  exact ⟨hc, hl.honest (Nat.le_trans hr hl.settled_le) hh⟩

theorem Guarded.later (hl : T.Later p w p' w') {guard : Option InFlightGuard}
    (h : Guarded w i r q guard) : Guarded w' i r q guard := by
  intro g hg
  obtain ⟨hlt, hrev, hq, hlead⟩ := h g hg
  obtain ⟨hkey, hleader⟩ := hl.entries g.entry hlt
  exact ⟨Nat.lt_of_lt_of_le hlt hl.nextEntry, hkey ▸ hrev, hkey ▸ hq, hleader ▸ hlead⟩

theorem FollowsEntry.later (hl : T.Later p w p' w') {e : EntryId}
    (h : FollowsEntry w r q e) : FollowsEntry w' r q e := by
  obtain ⟨hlt, hrev, hq⟩ := h
  obtain ⟨hkey, -⟩ := hl.entries e hlt
  exact ⟨Nat.lt_of_lt_of_le hlt hl.nextEntry, hkey ▸ hrev, hkey ▸ hq⟩

theorem Checking.later (hl : T.Later p w p' w') (hr : r ≤ p.settled) {src : Source V}
    {rest : List Dep} {v : V} (h : T.Checking p w i r q src rest v) :
    T.Checking p' w' i r q src rest v := by
  obtain ⟨s, pre, post, hc, hs, hdeps, hrest, hf, hrec, hpre⟩ := h
  refine ⟨s, pre, post, hc, hs, hdeps, hrest, hf, hl.recorded hrec, fun da hda => ?_⟩
  exact hl.now hr (hrec da (List.mem_append_left _ hda)) (hpre da hda)

/-- An outdated record in a cell was there before. -/
theorem Later.outdated (hl : T.Later p w p' w') (hi : i < w.viewCount) (hrev : r = w.rev i)
    (hsame : w'.rev i = w.rev i) {R : ReadyRecord V} (hs : w'.state i q = .ready R)
    (hne : R.verifiedAt ≠ r) : w.state i q = .ready R :=
  hl.stale i hi hsame q R hs (hrev ▸ hne)

theorem SourceOk.later (hl : T.Later p w p' w') (hi : i < w.viewCount) (hrev : r = w.rev i)
    (hsame : w'.rev i = w.rev i) (hr : r ≤ p.settled) {v : V} {src : Source V}
    (h : T.SourceOk p w i r q v src) :
    T.SourceOk p' w' i r q v src := by
  have hr0 : r ≤ w.rev 0 := Nat.le_trans hr hl.settled_le
  cases src with
  | cell deps ch foreign =>
    intro R hs hne
    exact h R (hl.outdated hi hrev hsame hs hne) hne
  | shared F prev =>
    obtain ⟨hv, hlt, hh, hpast⟩ := h
    refine ⟨hv, hlt, hl.honest (Nat.le_trans hlt hr0) hh, fun s a hs ha => ?_⟩
    rw [hl.answer_past q s (Nat.lt_of_lt_of_le hs hr0)] at ha
    refine (hpast s a hs ha).imp id ?_
    rintro ⟨out, hout, hd⟩
    exact ⟨out, hout, hl.derives hd⟩

theorem RevalidateOk.later (hl : T.Later p w p' w') (hi : i < w.viewCount)
    (hrev : r = w.rev i) (hsame : w'.rev i = w.rev i) (hr : r ≤ p.settled) {src : Source V}
    {rest : List Dep}
    (h : T.RevalidateOk p w i r q src rest) : T.RevalidateOk p' w' i r q src rest := by
  refine ⟨h.1.later hl hr, fun hf => ?_⟩
  obtain ⟨v, hcheck, hsrc⟩ := h.2 hf
  exact ⟨v, hcheck.later hl hr, hsrc.later hl hi hrev hsame hr⟩

theorem ReadsOk.later (hl : T.Later p w p' w') (hr : r ≤ p.settled)
    {obs : Obs DynKey PicanteError (Option V)} {prog : Query V}
    (h : T.ReadsOk p w i r q obs prog) : T.ReadsOk p' w' i r q obs prog :=
  ⟨h.1.mono (hl.extends_env hr), fun hi => hl.recorded (h.2 hi)⟩

theorem ResultOk.later (hl : T.Later p w p' w') (hr : r ≤ p.settled) {res : AccessResult V}
    (h : T.ResultOk p w r q res) : T.ResultOk p' w' r q res := by
  cases res with
  | error e => exact hl.fails hr h
  | ok vc => exact hl.sound hr h

theorem Answered.later (hl : T.Later p w p' w') {res : AccessResult V}
    (h : T.Answered p i r q res) : T.Answered p' i r q res := by
  cases res with
  | error e => exact fun hacc hi => hl.answer q r _ (h hacc hi)
  | ok vc => exact fun hi => hl.answer q r _ (h hi)

theorem OpOk.later (hl : T.Later p w p' w') (hr : r ≤ p.settled)
    {guard : Option InFlightGuard} {op : MicroOp V} (h : T.OpOk p w i r q guard op) :
    T.OpOk p' w' i r q guard op := by
  cases op with
  | setCell st =>
    cases st with
    | ready R =>
      obtain ⟨hver, hs, hev, hcov⟩ := h
      exact ⟨hver, hl.sound hr hs, fun hn => hl.evidence (hev hn),
        fun hi => hl.covered hr (hcov hi)⟩
    | poisoned e ver =>
      obtain ⟨hver, hf, hcov⟩ := h
      exact ⟨hver, hl.fails hr hf, fun hacc hi => hl.covered hr (hcov hacc hi)⟩
    | vacant => exact h.elim
    | running started o => exact h.elim
  | putShared F =>
    obtain ⟨hver, hs, hev⟩ := h
    exact ⟨hver, hl.sound hr hs, fun hn => ⟨(hev hn).1, hl.evidence (hev hn).2⟩⟩
  | setEntry st =>
    cases st with
    | done v deps c =>
      obtain ⟨hg, hs, hev⟩ := h
      exact ⟨hg.later hl, hl.sound hr hs, fun hi => hl.evidence (hev hi)⟩
    | failed e =>
      obtain ⟨hg, hf, hcov⟩ := h
      exact ⟨hg.later hl, hl.fails hr hf, fun hacc hi => hl.covered hr (hcov hacc hi)⟩
    | running => trivial
    | cancelled => trivial
  | checked res => exact ResultOk.later hl hr h
  | raise e => exact ⟨hl.fails hr h.1, h.2⟩
  | updateDeps _ | notifyCell | notifyEntry | unregister => trivial

theorem Published.later (hl : T.Later p w p' w') (hr : r ≤ p.settled)
    {ops : List (MicroOp V)} (h : Published w r q ops) : Published w' r q ops := by
  induction ops with
  | nil => trivial
  | cons op ops ih =>
    cases op with
    | putShared F => trivial
    | setEntry st =>
      cases st with
      | done v deps c => exact ⟨hl.noOlder hr h.1, ih h.2⟩
      | running | failed _ | cancelled => exact ih h
    | updateDeps _ | setCell _ | notifyCell | notifyEntry | unregister | checked _ | raise _ =>
      exact ih h

theorem published_of_noOlder (h : w.NoOlder q r) (ops : List (MicroOp V)) :
    Published w r q ops := by
  induction ops with
  | nil => trivial
  | cons op ops ih =>
    cases op with
    | putShared F => trivial
    | setEntry st =>
      cases st with
      | done v deps c => exact ⟨h, ih⟩
      | running | failed _ | cancelled => exact ih
    | updateDeps _ | setCell _ | notifyCell | notifyEntry | unregister | checked _ | raise _ =>
      exact ih

theorem FinishOk.later (hl : T.Later p w p' w') (hr : r ≤ p.settled)
    {guard : Option InFlightGuard} {ops : List (MicroOp V)}
    (h : T.FinishOk p w i r q guard ops) : T.FinishOk p' w' i r q guard ops where
  shape := h.shape
  each op hop := (h.each op hop).later hl hr
  answered hset res hres := (h.answered hset res hres).later hl
  poisons := h.poisons
  published := h.published.later hl hr

/-- **An access keeps what it relies on, whatever anyone else does.** -/
theorem PcOk.later (hl : T.Later p w p' w') (hi : i < w.viewCount) (hrev : r = w.rev i)
    (hsame : w'.rev i = w.rev i) (hr : r ≤ p.settled) {guard : Option InFlightGuard} {pc : Pc V}
    (h : T.PcOk p w i r q guard pc) : T.PcOk p' w' i r q guard pc := by
  cases pc with
  | top | listen | observe _ | parked _ | attempt => trivial
  | revalidate src rest => exact RevalidateOk.later hl hi hrev hsame hr h
  | touching src dep rest => exact ⟨h.1.later hl hi hrev hsame hr, h.2⟩
  | reverify =>
    intro R hs hne
    obtain ⟨hright, hd⟩ := h R (hl.outdated hi hrev hsame hs hne) hne
    exact ⟨hl.right hr hright, fun h0 => hl.derives (hd h0)⟩
  | sharedGet prev | lead prev => exact PrevOk.later hl hr h
  | followReset e | followListen e | followRead e _ | followParked e _ =>
    exact FollowsEntry.later hl h
  | computing prev prog deps =>
    obtain ⟨hprev, hg, hprog⟩ := h
    refine ⟨hprev.later hl hr, hg.later hl, hprog.imp ?_ ?_⟩
    · rintro ⟨obs, hobs, hdeps⟩
      exact ⟨obs, hobs.later hl hr, hdeps⟩
    · rintro ⟨hacc, e, he, hf⟩
      exact ⟨hacc, e, he, hl.fails hr hf⟩
  | reading prev d k deps =>
    obtain ⟨hprev, hg, hd, obs, hobs, hdeps⟩ := h
    exact ⟨hprev.later hl hr, hg.later hl, hd, obs, hobs.later hl hr, hdeps⟩
  | finishing ops => exact FinishOk.later hl hr h

theorem LocalOk.later (hl : T.Later p w p' w') (hi : i < w.viewCount) {a : Activation V}
    (h : T.LocalOk p w i a) : T.LocalOk p' w' i a := by
  by_cases htop : a.pc = .top
  · exact ⟨h.derived, fun hne => absurd htop hne, fun hne => absurd htop hne,
      fun _ => by rw [htop]; trivial⟩
  · have hset := h.settled htop
    refine ⟨h.derived, fun _ => Nat.le_trans hset hl.past.settled,
      fun _ => Nat.le_trans (h.rev_le htop) (hl.rev_le i hi), fun hrev => ?_⟩
    rcases hl.rev i hi with hsame | hmoved
    · exact (h.pc (hrev.trans hsame)).later hl hi (hrev.trans hsame) hsame hset
    · -- the view has moved past every revision that was settled
      rw [← hrev] at hmoved
      exact absurd hset (Nat.not_le_of_lt hmoved)

end later

end Spec

end Picante

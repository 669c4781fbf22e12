/-
# Whether a record may be promoted

`record_is_valid_on` (`ingredient/derived.rs`) checks a record that the caller holds: it touches its
dependencies, one after another, as `try_revalidate` does, but under no frame and for no cell.  Its
doc comment says that a record which passes can be promoted into the database.

* `valid_record_is_right` -- a record of the database itself that passes, however old, holds what
  the evaluation without a cache returns.
* `valid_record_of_changed_snapshot` -- one of a snapshot that was changed may pass and be wrong:
  its change stamp is of another past.
-/
import Picante.Announced
import Picante.Isolation

namespace Picante

open ReadProg Config Spec

variable {V : Type}

/-! ## 1. The check -/

section check

variable [DecidableEq V] (S : Schema V) (fuel : Nat) (view : ViewId)

/-- The change stamp of a dependency: the touch of a derived one is an access. -/
def touch (dep : Dep) (c : Config V) : Option (Config V × PicanteResult Revision) :=
  match S.sectionType dep.kind with
  | .input => some (c, .ok ((c.world.inputs view).touch dep))
  | .interned =>
    match c.world.internedAt S dep with
    | some _ => some (c, .ok 0)
    | none => some (c, .error (World.missingInterned S dep))
  | .derived =>
    (runOp S fuel c (.access view dep false)).bind fun c' =>
      c'.lastResult.map fun r => (c', r.map (·.2))

/-- `record_is_valid_on`, for a record with the change stamp and the dependencies. -/
def recordIsValidOn (changedAt : Revision) :
    List Dep → Config V → Option (Config V × PicanteResult Bool)
  | [], c => some (c, .ok true)
  | dep :: rest, c =>
    if S.registered dep.kind then
      match touch S fuel view dep c with
      | none => none
      | some (c', .error e) => some (c', .error e)
      | some (c', .ok ch) =>
        if changedAt < ch then some (c', .ok false) else recordIsValidOn changedAt rest c'
    else some (c, .ok false)

variable {S fuel view} {c c' : Config V}

theorem grows_steps {P : Config V → Label V → Config V → Prop} {ls : List (Label V)}
    (h : Trans.Steps (step S) P c ls c') : c.world.Grows c'.world :=
  h.invariant (I := fun m => c.world.Grows m.world) (.refl _)
    fun _ _ _ hgrow hl _ => hgrow.trans (grows_step hl)

/-- A touch ends with no access under way, and its events are added to the log. -/
theorem grows_touch {dep : Dep} {r : PicanteResult Revision} (hidle : c.Idle)
    (h : touch S fuel view dep c = some (c', r)) : c.world.Grows c'.world ∧ c'.Idle := by
  unfold touch at h
  split at h
  · cases h
    exact ⟨.refl _, hidle⟩
  · split at h <;> cases h <;> exact ⟨.refl _, hidle⟩
  · obtain ⟨m, hm, hres⟩ := Option.bind_eq_some_iff.mp h
    obtain ⟨r', -, heq⟩ := Option.map_eq_some_iff.mp hres
    cases heq
    obtain ⟨ls, hls, hidle'⟩ := runOp_steps (P := fun _ => True) hm hidle trivial
    exact ⟨grows_steps hls, hidle'⟩

theorem grows_recordIsValidOn {ch : Revision} {deps : List Dep} {r : PicanteResult Bool}
    (hidle : c.Idle) (h : recordIsValidOn S fuel view ch deps c = some (c', r)) :
    c.world.Grows c'.world := by
  induction deps generalizing c with
  | nil =>
    cases h
    exact .refl _
  | cons dep rest ih =>
    unfold recordIsValidOn at h
    split at h
    · split at h
      · cases h
      · next htouch =>
        cases h
        exact (grows_touch hidle htouch).1
      · next htouch =>
        obtain ⟨hgrow, hidle'⟩ := grows_touch hidle htouch
        split at h
        · cases h
          exact hgrow
        · exact hgrow.trans (ih hidle' h)
    · cases h
      exact .refl _

end check

/-! ## 2. Records of the database -/

section database

variable [DecidableEq V] {T : Spec V} {p : Past V} {fuel : Nat} {c c' : Config V} {q : DynKey}

/-- **What an access to the database returns is what its key holds now.** -/
theorem now_of_access (hT : T.Fits) (h : T.Rested p c) {want : Bool}
    (hrun : runOp T.schema fuel c (.access 0 q want) = some c')
    (hlog : ∀ e ∈ c'.world.log, e.foreign = false → Allows T.account e) {v : V} {ch : Revision}
    (hresult : c'.lastResult = some (.ok (v, ch))) :
    ∃ p', T.Later p c.world p' c'.world ∧ T.Rested p' c' ∧
      T.Now p' c'.world 0 (c'.world.rev 0) q (.ok (some v)) ch := by
  obtain ⟨ls, m, hls, hstep, hview, hkey, hcount, hidle⟩ :=
    runOp_access (P := Label.OnDatabase) hrun h.idle rfl
  have hgrow := grows_step hstep
  obtain ⟨horderly, hcalm, hnative⟩ := orderly_of_native T.account hls h.calm h.native
    fun e he hf => hlog e (hgrow.mem he) hf
  obtain ⟨p₁, hlater, hp₁, hup₁⟩ := Spec.later_run hT h.consistent h.upToDate horderly
  -- the last step, in which the access returns
  have hseq : SequentialIn Label.OnDatabase m (.step c.taskCount) c' := .inl ⟨_, rfl⟩
  have hnative' := hnative.step hstep trivial
  have hask : m.Asked T.account (.step c.taskCount) :=
    hcalm.asked hseq (fun _ => Label.OnDatabase.primary) fun _ => hnative.world.leaders
  obtain ⟨p₂, hlater', hp₂, hup₂⟩ := Spec.later_step hT hp₁ hup₁ hstep
    ⟨hask, fun e he => hlog e he (hnative'.world.log e he)⟩
  refine ⟨p₂, hlater.trans hlater' h.consistent.world.nonempty,
    ⟨hp₂, hup₂, hcalm.step hstep hseq.sequential, hnative', hidle⟩, ?_⟩
  cases taskStep_of_step hstep with
  | goto => exact absurd (by simp [Pending, setTask]) (hidle c.taskCount)
  | call => exact absurd (by simp [Pending, setTask]) (hidle c.taskCount)
  | resume => exact absurd (by simp [Pending, setTask]) (hidle c.taskCount)
  | @ret a w r hst ha =>
    have hr : r = .ok (v, ch) := by
      have hcount' : m.taskCount = c.taskCount + 1 := hcount
      simpa [lastResult, hcount', setTask] using hresult
    subst hr
    obtain ⟨hderived, hakey⟩ : T.Derived a.key ∧ a.key = q := by
      have hstack := hp₁.stacked c.taskCount
      rw [hst, hkey] at hstack
      exact ⟨hstack.1.derived, hstack.2.1⟩
    obtain ⟨hsound, hanswer⟩ := hp₁.value (returns_of_actStep hst ha) hview
    rw [hakey] at hsound hanswer
    have hnow := Spec.Sound.now hsound (hakey ▸ hderived) (i := 0) fun _ => hanswer
    obtain rfl := ha.ret_world
    exact hlater'.now (Nat.le_of_eq (hup₁ hcalm.settled).symm) (hnow.told rfl) hnow

/-- **What is touched is what the dependency holds now**, with an honest stamp. -/
theorem now_of_touch (hT : T.Fits) (h : T.Rested p c) {ch : Revision}
    (htouch : touch T.schema fuel 0 q c = some (c', .ok ch))
    (hlog : ∀ e ∈ c'.world.log, e.foreign = false → Allows T.account e) :
    ∃ p' a, T.Later p c.world p' c'.world ∧ T.Rested p' c' ∧ c'.world.rev 0 = c.world.rev 0 ∧
      T.Now p' c'.world 0 (c'.world.rev 0) q a ch := by
  have hsettled : p.settled = c.world.rev 0 := h.upToDate h.calm.settled
  have hstill := (h.consistent.world.quiet (quiet_refl c.world)).later
  unfold touch at htouch
  cases hk : T.schema.sectionType q.kind with
  | input =>
    simp only [hk] at htouch
    cases htouch
    exact ⟨p, _, hstill, h, rfl, h.consistent.world.now_input (Nat.le_of_eq hsettled.symm) hk⟩
  | interned =>
    simp only [hk] at htouch
    split at htouch
    · next v hv =>
      cases htouch
      exact ⟨p, _, hstill, h, rfl, now_interned hk hv 0 _⟩
    · cases htouch
  | derived =>
    simp only [hk] at htouch
    obtain ⟨m, hm, hres⟩ := Option.bind_eq_some_iff.mp htouch
    obtain ⟨r, hr, heq⟩ := Option.map_eq_some_iff.mp hres
    cases r with
    | error e => cases heq
    | ok vc =>
      cases heq
      obtain ⟨p', hlater, hrested, hnow⟩ := now_of_access hT h hm hlog hr
      exact ⟨p', _, hlater, hrested, (access_fixed hm).rev 0, hnow⟩

/-- **A record that passes is right**, if it was right at this revision before, or the database
was told of its dependencies at an earlier one. -/
theorem right_of_valid (hT : T.Fits) (h : T.Rested p c) (hq : T.Derived q) {ch : Revision}
    {deps rest : List Dep} {v : V}
    (hrecord : T.Right p c.world (c.world.rev 0) q (.ok (some v)) ∨
      T.Checking p c.world 0 (c.world.rev 0) q (.cell deps ch false) rest v)
    (hvalid : recordIsValidOn T.schema fuel 0 ch rest c = some (c', .ok true))
    (hlog : ∀ e ∈ c'.world.log, e.foreign = false → Allows T.account e) :
    ∃ p', T.Rested p' c' ∧ T.Right p' c'.world (c'.world.rev 0) q (.ok (some v)) := by
  induction rest generalizing p c with
  | nil =>
    cases hvalid
    exact ⟨p, h, hrecord.elim id fun hcheck => (hcheck.done hq).1⟩
  | cons dep rest ih =>
    unfold recordIsValidOn at hvalid
    split at hvalid
    · split at hvalid
      · cases hvalid
      · cases hvalid
      · next m ch' htouch =>
        split at hvalid
        · cases hvalid
        · next hle =>
          have hgrow := grows_recordIsValidOn (grows_touch h.idle htouch).2 hvalid
          obtain ⟨p', a, hlater, hrested, hrev, hnow⟩ := now_of_touch hT h htouch
            fun e he hf => hlog e (hgrow.mem he) hf
          have hsettled := Nat.le_of_eq (h.upToDate h.calm.settled).symm
          rw [hrev] at hnow
          refine ih hrested ?_ hvalid
          rw [hrev]
          refine hrecord.imp (hlater.right hsettled) fun hcheck => ?_
          exact (hcheck.later hlater hsettled).pass hnow (Nat.le_of_not_lt hle)
    · cases hvalid

end database

/-- **A record of the database that passes is right.**  `R` is in a cell of the database at some
point of a sequential run on it; however far the run goes on, if the record is then found valid,
its value is what the evaluation without a cache returns. -/
theorem valid_record_is_right [DecidableEq V] {S : Schema V} {body : DynKey → Query V}
    {fuel : Nat} {ops₁ ops₂ : List (Op V)} {c₁ c₂ c : Config V} {q : DynKey} {R : ReadyRecord V}
    (hdet : ∀ n q, S.compute n q = body q) (hprop : ∀ q, (body q).Propagates)
    (hq : S.sectionType q.kind = .derived)
    (h₁ : runOps S fuel init ops₁ = some c₁) (hready : c₁.world.state 0 q = .ready R)
    (h₂ : runOps S fuel c₁ ops₂ = some c₂)
    (hvalid : recordIsValidOn S fuel 0 R.changedAt R.deps c₂ = some (c, .ok true))
    (hops : ∀ op ∈ ops₁ ++ ops₂, op.OnDatabase)
    (hmissing : ∀ e ∈ c.world.log, e.isMissing = false) :
    Uncached S body c.world ((c.world.inputs 0).get) q (.ok R.value) := by
  have hT : Spec.Fits ⟨S, body, .failures⟩ := ⟨hdet, fun _ => hprop⟩
  have hlog : ∀ e ∈ c.world.log, e.foreign = false → Allows .failures e := fun e he hf =>
    allows_native hf (hmissing e he)
  obtain ⟨ls, hls, hidle₁⟩ := runOps_steps (P := fun _ => True) h₁ idle_init fun _ _ => trivial
  obtain ⟨ls', hls', hidle₂⟩ := runOps_steps (P := fun _ => True) h₂ hidle₁ fun _ _ => trivial
  have hgrow₂ := grows_recordIsValidOn hidle₂ hvalid
  have hgrow₁ : c₁.world.Grows c₂.world := grows_steps hls'
  obtain ⟨p₁, -, hr₁⟩ := (Spec.rested_init ⟨S, body, .failures⟩).runOps hT h₁
    (fun op hop => hops op (List.mem_append_left _ hop))
    fun e he => hlog e (hgrow₂.mem (hgrow₁.mem he))
  obtain ⟨p₂, hlater, hr₂⟩ := hr₁.runOps hT h₂
    (fun op hop => hops op (List.mem_append_right _ hop)) fun e he => hlog e (hgrow₂.mem he)
  have hok := hr₁.consistent.world.ready 0 q R hready
  have hforeign : R.foreign = false := by
    have hstate := hr₁.native.world.state q
    rw [hready] at hstate
    exact hstate.foreign
  have hrev := hlater.rev_le 0 hr₁.consistent.world.nonempty
  have hsettled := Nat.le_of_eq (hr₁.upToDate hr₁.calm.settled).symm
  have hrecord : Spec.Right ⟨S, body, .failures⟩ p₂ c₂.world (c₂.world.rev 0) q
      (.ok (some R.value)) ∨ Spec.Checking ⟨S, body, .failures⟩ p₂ c₂.world 0 (c₂.world.rev 0) q
        (.cell R.deps R.changedAt false) R.deps R.value := by
    rcases Nat.lt_or_eq_of_le (Nat.le_trans hok.verified_le hrev) with hlt | heq
    · -- an older record
      obtain ⟨s, obs, hc, hs, hdeps, hfollow, hrecorded⟩ := hlater.evidence (hok.evidence hforeign)
      exact .inr ⟨s, [], obs, hc, Nat.lt_of_le_of_lt hs hlt, hdeps, hdeps, hfollow, hrecorded,
        nofun⟩
    · -- one of this revision
      have hsame : c₂.world.rev 0 = c₁.world.rev 0 :=
        Nat.le_antisymm (heq ▸ hok.verified_le) hrev
      rw [hsame] at heq ⊢
      exact .inl (hlater.right hsettled (hok.right heq))
  obtain ⟨p, hr, hright⟩ := right_of_valid hT hr₂ hq hrecord hvalid hlog
  exact uncached_ok hq
    (hr.consistent.world.right_inputs (Nat.le_of_eq (hr.upToDate hr.calm.settled).symm) hright)

open Cancellation in
/-- A record of `nested` is still valid after `y` was set, and is not once `x` has another value. -/
example : (runOps schema 60 init [.mutate 0 x (some 1), .access 0 nested true,
      .mutate 0 y (some 1)]).any fun c =>
    match c.world.state 0 nested with
    | .ready R =>
      (recordIsValidOn schema 60 0 R.changedAt R.deps c).any (fun r => r.2 = .ok true) ∧
      (runOp schema 60 c (.mutate 0 x (some 2))).any fun c =>
        (recordIsValidOn schema 60 0 R.changedAt R.deps c).any fun r => r.2 = .ok false
    | _ => False := by decide +kernel

/-! ## 3. Records of a changed snapshot -/

open Cancellation in
/-- **A record of another past may pass.**  A snapshot sets `x` to 5 and computes `nested`.  Its
revision is later than any of the database, where `x` is still 1: the record is found valid on the
database, and holds 5. -/
theorem valid_record_of_changed_snapshot :
    ∃ (c c' : Config Nat) (R : ReadyRecord Nat),
      runOps schema 60 init [.mutate 0 x (some 1), .snapshot, .mutate 1 x (some 5),
        .access 1 nested true] = some c ∧
      c.world.state 1 nested = .ready R ∧
      recordIsValidOn schema 60 0 R.changedAt R.deps c = some (c', .ok true) ∧
      ¬ Uncached schema body c'.world ((c'.world.inputs 0).get) nested (.ok R.value) := by
  have hrun : (runOps schema 60 init [.mutate 0 x (some 1), .snapshot, .mutate 1 x (some 5),
      .access 1 nested true]).any (fun c =>
        c.world.state 1 nested = .ready ⟨5, 2, 2, [x], true⟩ ∧
          (recordIsValidOn schema 60 0 2 [x] c).any fun r => r.2 = .ok true ∧
            evaluate (slotsEnv schema body r.1.world ((r.1.world.inputs 0).get)) (faults schema) 3
              [] nested = some (.ok 1)) := by decide +kernel
  obtain ⟨c, hc, hchecked⟩ := (Option.any_eq_true ..).mp hrun
  obtain ⟨hready, hchecked⟩ := of_decide_eq_true hchecked
  obtain ⟨⟨c', verdict⟩, hc', hlast⟩ := (Option.any_eq_true ..).mp hchecked
  obtain ⟨rfl, heval⟩ : verdict = .ok true ∧ _ := of_decide_eq_true hlast
  exact ⟨c, c', _, hc, hready, hc', fun h => by cases h.functional ⟨3, heval⟩⟩

end Picante

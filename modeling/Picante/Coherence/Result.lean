/-
# Results and where they come from

An access gets a result by revalidating a record (section 1), from what is cached (section 2),
or by computing it (section 4).  Here is what each of them establishes, in the terms of
`PcOk`: the lemmas say what an activation relies on next, once it has found something.

`Checking.honest` is the argument for the shared cache: why the stamp of an old record is honest
when all its dependencies stand.
-/
import Picante.Coherence.Access

namespace Picante

open ReadProg Stamp

variable {V : Type}

namespace Spec

variable {T : Spec V} {p p' : Past V} {w w' : World V} {i : ViewId} {r : Revision} {q : DynKey}

/-! ## 1. Revalidation -/

/-- **A dependency that is stamped no later than the record still stands.** -/
theorem Checking.pass {src : Source V} {dep : Dep} {rest : List Dep} {v : V}
    {a : PicanteResult (Option V)} {c : Revision}
    (h : T.Checking p w i r q src (dep :: rest) v) (hnow : T.Now p w i r dep a c)
    (hc : c ≤ src.changedAt) : T.Checking p w i r q src rest v := by
  obtain ⟨s, pre, post, hs, hsr, hdeps, hrest, hfol, hrec, hpre⟩ := h
  cases post with
  | nil => cases hrest
  | cons da post =>
    obtain ⟨d, b⟩ := da
    obtain ⟨rfl, hrest'⟩ := List.cons.inj hrest
    have happ : pre ++ (dep, b) :: post = (pre ++ [(dep, b)]) ++ post := by simp
    rw [happ] at hdeps hfol hrec
    refine ⟨s, pre ++ [(dep, b)], post, hs, hsr, hdeps, hrest', hfol, hrec, fun da hda => ?_⟩
    rcases List.mem_append.mp hda with hda | hda
    · exact hpre da hda
    · obtain rfl := List.mem_singleton.mp hda
      exact hnow.stands hc hs hsr (hrec (dep, b) (by simp))

theorem RevalidateOk.pass {src : Source V} {dep : Dep} {rest : List Dep}
    {a : PicanteResult (Option V)} {c : Revision}
    (h : T.RevalidateOk p w i r q src (dep :: rest)) (hnow : T.Now p w i r dep a c)
    (hc : c ≤ src.changedAt) : T.RevalidateOk p w i r q src rest := by
  refine ⟨h.1, fun hf => ?_⟩
  obtain ⟨v, hcheck, hsrc⟩ := h.2 hf
  exact ⟨v, hcheck.pass hnow hc, hsrc⟩

/-- The program of a record under revalidation reads the next dependency. -/
theorem RevalidateOk.reads (hT : T.Fits) (hacc : T.account ≠ .answers) {src : Source V}
    {dep : Dep} {rest : List Dep} (h : T.RevalidateOk p w i r q src (dep :: rest))
    (hf : src.foreign r = false) :
    ∃ obs k, T.account.Reads (T.env w (p.content r)) (T.body q) obs (.read dep k) := by
  obtain ⟨v, ⟨s, pre, post, hs, hsr, hdeps, hrest, hfol, hrec, hpre⟩, hsrc⟩ := h.2 hf
  cases post with
  | nil => cases hrest
  | cons da post =>
    obtain ⟨d, b⟩ := da
    obtain ⟨rfl, hrest'⟩ := List.cons.inj hrest
    have hok := (hT.suits hacc q).obs_ok hfol
    obtain ⟨k, hk⟩ := Account.Reads.take T.account (T.env w (p.content r)) hfol
      fun da hda => ⟨(hpre da hda).right, fun _ => hok da (List.mem_append_left _ hda)⟩
    exact ⟨pre, k, hk⟩

/-- **The error of a touch is accounted for as one of the record's query.** -/
theorem RevalidateOk.fails (hT : T.Fits) (hacc : T.account ≠ .answers) {src : Source V}
    {dep : Dep} {rest : List Dep} (h : T.RevalidateOk p w i r q src (dep :: rest))
    (hf : T.account = .failures → src.foreign r = false) (hd : T.Derived dep)
    {e : PicanteError} (he : T.Fails p w r dep e) : T.Fails p w r q e := by
  cases ha : T.account with
  | values => rw [Fails, ha]; trivial
  | answers => exact absurd ha hacc
  | failures =>
    obtain ⟨obs, k, hk⟩ := h.reads hT hacc (hf ha)
    exact hk.check_error hacc (derived_env.mpr hd) he

/-- **A record all of whose dependencies stand is right**, and on the database it is derived
from what is on record. -/
theorem Checking.done {src : Source V} {v : V} (hq : T.Derived q)
    (h : T.Checking p w i r q src [] v) :
    T.Right p w r q (.ok (some v)) ∧ src.changedAt ≤ r ∧
      (i = 0 → Derives (T.told p w) r (T.body q) (.ok v)) ∧
      T.Evidence p w q v src.deps src.changedAt r := by
  obtain ⟨s, pre, post, hs, hsr, hdeps, hrest, hfol, hrec, hpre⟩ := h
  obtain rfl : post = [] := List.map_eq_nil_iff.mp hrest.symm
  rw [List.append_nil] at hdeps hfol hrec
  refine ⟨Right.of_follows hq hfol fun da hda => (hpre da hda).right,
    Nat.le_trans hs (Nat.le_of_lt hsr), fun h0 => ⟨pre, hfol, fun da hda => ?_⟩,
    ⟨s, pre, hs, Nat.le_of_lt hsr, hdeps, hfol, hrec⟩⟩
  exact (hpre da hda).told h0

/-- **The stamp of a shared record all of whose dependencies stand is honest.**  An answer since
the record was made either was found by recorded reads, which the dependencies then contradict
unless it is the same, or is not later than the record's verification. -/
theorem Checking.honest {F : SharedCacheRecord V} {prev : Previous V} {v : V}
    (h : T.Checking p w i r q (.shared F prev) [] v)
    (hsrc : T.SourceOk p w i r q v (.shared F prev)) :
    Honest (p.answer q) r (.ok (some F.value)) F.changedAt := by
  obtain ⟨s, pre, post, hs, hsr, hdeps, hrest, hfol, hrec, hpre⟩ := h
  obtain ⟨rfl, hlt, hnative, hpast⟩ := hsrc
  obtain rfl : post = [] := List.map_eq_nil_iff.mp hrest.symm
  rw [List.append_nil] at hfol
  intro t ht htr b hb
  rcases hpast t b htr hb with hle | ⟨out, rfl, obs, hfol', hrec'⟩
  · exact hnative t ht (Nat.lt_succ_of_le hle) b hb
  · have hagree := follows_agree hfol hfol' fun d a a' hm hm' =>
      ((hpre (d, a) hm).honest t ht htr a' (hrec' (d, a') hm')).symm
    rw [← hagree.1]
    rfl

/-! ## 2. The straight-line parts -/

/-- The rest of a straight-line part. -/
theorem FinishOk.tail {guard : Option InFlightGuard} {op : MicroOp V} {ops : List (MicroOp V)}
    (h : T.FinishOk p w i r q guard (op :: ops))
    (hset : op.setsCell = true → ∀ res, .checked res ∈ ops → T.Answered p i r q res)
    (hput : op.putsShared = true → w.NoOlder q r) : T.FinishOk p w i r q guard ops where
  shape := h.shape.tail
  each op' hop := h.each op' (List.mem_cons_of_mem _ hop)
  answered hall res hres := by
    cases hs : op.setsCell with
    | true => exact hset hs res hres
    | false =>
      refine h.answered (fun op' hop => ?_) res (List.mem_cons_of_mem _ hres)
      rcases List.mem_cons.mp hop with rfl | hop
      · exact hs
      · exact hall op' hop
  poisons e ver hmem v c hc :=
    h.poisons e ver (List.mem_cons_of_mem _ hmem) v c (List.mem_cons_of_mem _ hc)
  published := by
    have hp := h.published
    cases op with
    | putShared F => exact published_of_noOlder (hput rfl) ops
    | setEntry st =>
      cases st with
      | done v deps c => exact hp.2
      | running | failed _ | cancelled => exact hp
    | updateDeps _ | setCell _ | notifyCell | notifyEntry | unregister | checked _ | raise _ =>
      exact hp

/-- A result that is ready to be returned. -/
theorem finishOk_checked {guard : Option InFlightGuard} {res : AccessResult V}
    (hres : T.ResultOk p w r q res) (hans : T.Answered p i r q res) :
    T.FinishOk p w i r q guard [.checked res] where
  shape := rfl
  each op hop := by
    obtain rfl := List.mem_singleton.mp hop
    exact hres
  answered _ res' hmem := by
    cases List.mem_singleton.mp hmem
    exact hans
  poisons e ver hmem := nomatch List.mem_singleton.mp hmem
  published := trivial

/-- An error that is passed on. -/
theorem finishOk_raise {guard : Option InFlightGuard} {e : PicanteError}
    (hf : T.Fails p w r q e) (hacc : T.account ≠ .answers) :
    T.FinishOk p w i r q guard [.raise e] where
  shape := rfl
  each op hop := by
    obtain rfl := List.mem_singleton.mp hop
    exact ⟨hf, hacc⟩
  answered _ res hmem := nomatch List.mem_singleton.mp hmem
  poisons e ver hmem := nomatch List.mem_singleton.mp hmem
  published := trivial

/-- The adoption of a shared record. -/
theorem finishOk_adopt {guard : Option InFlightGuard} {F : SharedCacheRecord V}
    (hsound : T.Sound p w r q F.value F.changedAt)
    (hev : F.foreign = false → T.Evidence p w q F.value F.deps F.changedAt r)
    (hcov : i = 0 → T.Covered p w q r (.ok F.value)) :
    T.FinishOk p w i r q guard (adoptOps i r F) where
  shape := opsOk_adoptOps i r F
  each op hop := by
    simp only [adoptOps, List.mem_cons, List.not_mem_nil, or_false] at hop
    rcases hop with rfl | rfl | rfl | rfl | rfl
    · trivial
    · exact ⟨rfl, hsound, hev, hcov⟩
    · trivial
    · refine ⟨rfl, hsound, fun hn => ?_⟩
      obtain ⟨hn, hi⟩ := Bool.or_eq_false_iff.mp hn
      exact ⟨by simpa using hi, hev hn⟩
    · exact hsound
  answered hall := by simp [adoptOps, MicroOp.setsCell] at hall
  poisons e ver hmem := by simp [adoptOps] at hmem
  published := trivial

/-- What a follower takes over from its leader. -/
theorem finishOk_follow {guard : Option InFlightGuard} {leader : ViewId} {v : V}
    {deps : List Dep} {c : Revision} (hsound : T.Sound p w r q v c)
    (hev : leader = 0 → T.Evidence p w q v deps c r) (hcov : w.NoOlder q r) :
    T.FinishOk p w i r q guard (followOps i leader r v deps c) where
  shape := opsOk_followOps i leader r v deps c
  each op hop := by
    simp only [followOps, List.mem_cons, List.not_mem_nil, or_false] at hop
    rcases hop with rfl | rfl | rfl | rfl | rfl
    · exact ⟨rfl, hsound, fun hn => hev (by simpa using hn), fun _ => .inr hcov⟩
    · trivial
    · trivial
    · refine ⟨rfl, hsound, fun hn => ?_⟩
      obtain ⟨hn, hi⟩ := Bool.or_eq_false_iff.mp hn
      exact ⟨by simpa using hi, hev (by simpa using hn)⟩
    · exact hsound
  answered hall := by simp [followOps, MicroOp.setsCell] at hall
  poisons e ver hmem := by simp [followOps] at hmem
  published := trivial

/-- The error a follower takes over from its leader. -/
theorem finishOk_followFailed {guard : Option InFlightGuard} {e : PicanteError}
    (hf : T.Fails p w r q e)
    (hcov : T.account = .answers → i = 0 → T.Covered p w q r (.error e)) :
    T.FinishOk p w i r q guard (followFailedOps r e) where
  shape := opsOk_followFailedOps r e
  each op hop := by
    simp only [followFailedOps, List.mem_cons, List.not_mem_nil, or_false] at hop
    rcases hop with rfl | rfl | rfl
    · exact ⟨rfl, hf, hcov⟩
    · trivial
    · exact hf
  answered hall := by simp [followFailedOps, MicroOp.setsCell] at hall
  poisons e ver _ v c hmem := by simp [followFailedOps] at hmem
  published := trivial

/-- A leader finalizes the value it has computed. -/
theorem finishOk_finalize_ok [DecidableEq V] {guard : Option InFlightGuard}
    {prev : Previous V} {v : V} {deps : List Dep} (hg : Guarded w i r q guard)
    (hsound : T.Sound p w r q v (changedAtOf prev r v))
    (hev : i = 0 → T.Evidence p w q v deps (changedAtOf prev r v) r)
    (hcov : i = 0 → T.Covered p w q r (.ok v)) :
    T.FinishOk p w i r q guard (finalizeOps i r prev deps (.ok v)) where
  shape := opsOk_finalizeOps i r prev deps (.ok v)
  each op hop := by
    simp only [finalizeOps, List.mem_cons, List.not_mem_nil, or_false] at hop
    rcases hop with rfl | rfl | rfl | rfl | rfl | rfl | rfl | rfl
    · trivial
    · exact ⟨rfl, hsound, fun hn => hev (by simpa using hn), hcov⟩
    · trivial
    · refine ⟨rfl, hsound, fun hn => ?_⟩
      have hi : i = 0 := by simpa using hn
      exact ⟨hi, hev hi⟩
    · exact ⟨hg, hsound, hev⟩
    · trivial
    · trivial
    · exact hsound
  answered hall := by simp [finalizeOps, MicroOp.setsCell] at hall
  poisons e ver hmem := by simp [finalizeOps] at hmem
  published := trivial

/-- A leader finalizes an error. -/
theorem finishOk_finalize_error [DecidableEq V] {guard : Option InFlightGuard}
    {prev : Previous V} {e : PicanteError} {deps : List Dep} (hg : Guarded w i r q guard)
    (hf : T.Fails p w r q e)
    (hcov : T.account = .answers → i = 0 → T.Covered p w q r (.error e)) :
    T.FinishOk p w i r q guard (finalizeOps i r prev deps (.error e)) where
  shape := opsOk_finalizeOps i r prev deps (.error e)
  each op hop := by
    simp only [finalizeOps, List.mem_cons, List.not_mem_nil, or_false] at hop
    rcases hop with rfl | rfl | rfl | rfl | rfl | rfl
    · exact ⟨rfl, hf, hcov⟩
    · trivial
    · exact ⟨hg, hf, hcov⟩
    · trivial
    · trivial
    · exact hf
  answered hall := by simp [finalizeOps, MicroOp.setsCell] at hall
  poisons e ver _ v c hmem := by simp [finalizeOps] at hmem
  published := trivial

/-! ## 3. What is cached -/

/-- A result found in the cell. -/
theorem Coherent.hit (hc : T.Coherent p w) {R : ReadyRecord V} (hs : w.state i q = .ready R)
    (hver : R.verifiedAt = w.rev i) {guard : Option InFlightGuard} :
    T.FinishOk p w i (w.rev i) q guard [.checked (.ok (R.value, R.changedAt))] := by
  have hR := hc.ready i q R hs
  refine finishOk_checked ⟨hver ▸ hR.changed_le, hR.right hver, hR.honest⟩ fun hi => ?_
  subst hi
  exact hc.ready_answered q R hs hver

/-- An error found in the cell. -/
theorem Coherent.poison (hc : T.Coherent p w) {e : PicanteError}
    (hs : w.state i q = .poisoned e (w.rev i)) {guard : Option InFlightGuard} :
    T.FinishOk p w i (w.rev i) q guard [.checked (.error e)] := by
  refine finishOk_checked (hc.poisoned i q e _ hs).2 fun hacc hi => ?_
  subst hi
  exact hc.poison_answered hacc q e hs

/-- The stamp of a value in the cell is honest. -/
theorem Coherent.prevOk (hc : T.Coherent p w) {R : ReadyRecord V}
    (hs : w.state i q = .ready R) : PrevOk p (w.rev i) q (some (R.value, R.changedAt)) := by
  intro v c hprev
  cases hprev
  have hR := hc.ready i q R hs
  exact ⟨Nat.le_trans hR.changed_le hR.verified_le, hR.honest⟩

theorem prevOk_none : PrevOk p r q none := nofun

/-- An outdated record of the cell is about to be revalidated. -/
theorem Coherent.stale (hc : T.Coherent p w) {R : ReadyRecord V} (hs : w.state i q = .ready R)
    (hver : R.verifiedAt ≠ w.rev i) :
    T.RevalidateOk p w i (w.rev i) q (.cell R.deps R.changedAt R.foreign) R.deps := by
  have hR := hc.ready i q R hs
  refine ⟨prevOk_none, fun hf => ⟨R.value, ?_, fun R' hs' _ => ?_⟩⟩
  · obtain ⟨s, obs, hcs, hsv, hdeps, hfol, hrec⟩ := hR.evidence hf
    have hlt : R.verifiedAt < w.rev i := Nat.lt_of_le_of_ne hR.verified_le hver
    exact ⟨s, [], obs, hcs, Nat.lt_of_le_of_lt hsv hlt, hdeps, hdeps, hfol, hrec,
      fun _ h => absurd h List.not_mem_nil⟩
  · rw [hs] at hs'
    cases hs'
    rfl

/-- A shared record of this very revision is about to be adopted. -/
theorem Coherent.sharedHit (hc : T.Coherent p w) {F : SharedCacheRecord V}
    (hs : w.shared (w.scope i) q = some F) (hver : F.verifiedAt = w.rev i)
    {guard : Option InFlightGuard} :
    T.FinishOk p w i (w.rev i) q guard (adoptOps i (w.rev i) F) := by
  rw [hc.scope i] at hs
  have hF := hc.shared q F hs
  refine finishOk_adopt (hver ▸ hF.sound) (fun hn => hver ▸ hF.evidence hn) fun _ => .inr ?_
  -- the record in the cache is this one
  intro F' hF' _
  rw [hs] at hF'
  cases hF'
  exact Nat.le_of_eq hver.symm

/-- A shared record of another revision is about to be revalidated. -/
theorem Coherent.sharedStale (hc : T.Coherent p w) {F : SharedCacheRecord V}
    {prev : Previous V} (hs : w.shared (w.scope i) q = some F) (hver : F.verifiedAt ≠ w.rev i)
    (hprev : PrevOk p (w.rev i) q prev) :
    T.RevalidateOk p w i (w.rev i) q (.shared F prev) F.deps := by
  rw [hc.scope i] at hs
  have hF := hc.shared q F hs
  refine ⟨hprev, fun hf => ?_⟩
  obtain ⟨hn, hle⟩ := Bool.or_eq_false_iff.mp hf
  have hlt : F.verifiedAt < w.rev i :=
    Nat.lt_of_le_of_ne (Nat.le_of_not_lt (of_decide_eq_false hle)) hver
  refine ⟨F.value, ?_, rfl, hlt, hF.native hn, fun s a _ ha => ?_⟩
  · obtain ⟨s, obs, hcs, hsv, hdeps, hfol, hrec⟩ := hF.evidence hn
    exact ⟨s, [], obs, hcs, Nat.lt_of_le_of_lt hsv hlt, hdeps, hdeps, hfol, hrec,
      fun _ h => absurd h List.not_mem_nil⟩
  · obtain ⟨-, out, hout, hcov⟩ := hc.answered q s a ha
    exact hcov.symm.imp (fun hold => hold F hs hn) fun hd => ⟨out, hout, hd⟩

/-- A follower finds the result of its leader. -/
theorem Coherent.followDone (hc : T.Coherent p w) {e : EntryId} {v : V} {deps : List Dep}
    {c : Revision} (hs : (w.registry.entries e).state = .done v deps c)
    (he : FollowsEntry w r q e) {guard : Option InFlightGuard} :
    T.FinishOk p w i r q guard
      (followOps i (w.registry.entries e).leader r v deps c) := by
  obtain ⟨-, rfl, rfl⟩ := he
  have hE := hc.entries e
  unfold EntryOk at hE
  rw [hs] at hE
  obtain ⟨-, hsound, hold, hev⟩ := hE
  exact finishOk_follow hsound hev hold

/-- A follower finds the error of its leader. -/
theorem Coherent.followFailed (hc : T.Coherent p w) {e : EntryId} {err : PicanteError}
    (hs : (w.registry.entries e).state = .failed err) (he : FollowsEntry w r q e)
    (hlead : T.account = .answers → i = 0 → (w.registry.entries e).leader = 0)
    {guard : Option InFlightGuard} :
    T.FinishOk p w i r q guard (followFailedOps r err) := by
  obtain ⟨-, rfl, rfl⟩ := he
  have hE := hc.entries e
  unfold EntryOk at hE
  rw [hs] at hE
  obtain ⟨-, hf, hcov⟩ := hE
  exact finishOk_followFailed hf fun hacc hi => hcov hacc (hlead hacc hi)

/-! ## 4. Computations -/

/-- The value of a computation, stamped by comparison with the previous value. -/
theorem sound_changedAtOf [DecidableEq V] {prev : Previous V} {v : V}
    (hprev : PrevOk p r q prev) (hright : T.Right p w r q (.ok (some v))) :
    T.Sound p w r q v (changedAtOf prev r v) := by
  cases prev with
  | none => exact ⟨Nat.le_refl r, hright, honest_now _ (Nat.le_refl r) _⟩
  | some vc =>
    obtain ⟨v', c⟩ := vc
    simp only [changedAtOf]
    by_cases heq : v' = v
    · subst heq
      rw [if_pos rfl]
      obtain ⟨hc, hh⟩ := hprev v' c rfl
      exact ⟨hc, hright, hh⟩
    · rw [if_neg heq]
      exact ⟨Nat.le_refl r, hright, honest_now _ (Nat.le_refl r) _⟩

/-- **A computation that has ended is finalized**: its reads are the evidence. -/
theorem finishOk_finalize [DecidableEq V] {guard : Option InFlightGuard} {prev : Previous V}
    {deps : List Dep} {out : PicanteResult V} (hq : T.Derived q)
    (hprev : PrevOk p r q prev) (hg : Guarded w i r q guard)
    (hprog : (∃ obs, T.ReadsOk p w i r q obs (.done out) ∧ deps = obs.map Prod.fst) ∨
      T.account ≠ .answers ∧ ∃ e, out = .error e ∧ T.Fails p w r q e) :
    T.FinishOk p w i r q guard (finalizeOps i r prev deps out) := by
  rcases hprog with ⟨obs, ⟨hreads, hrec⟩, hdeps⟩ | ⟨hacc, e, rfl, hf⟩
  · have hcov : i = 0 → T.Covered p w q r out := fun hi => .inl ⟨obs, hreads.1, hrec hi⟩
    cases out with
    | ok v =>
      have hsound := sound_changedAtOf hprev (hreads.yields (derived_env.mpr hq))
      exact finishOk_finalize_ok hg hsound
        (fun hi => ⟨r, obs, hsound.changed_le, Nat.le_refl r, hdeps, hreads.1, hrec hi⟩) hcov
    | error e =>
      exact finishOk_finalize_error hg (hreads.fails (derived_env.mpr hq)) fun _ => hcov
  · exact finishOk_finalize_error hg hf fun ha => absurd ha hacc

/-- A program reads what a key holds now. -/
theorem ReadsOk.snoc {obs : Obs DynKey PicanteError (Option V)} {d : DynKey}
    {k : PicanteResult (Option V) → Query V} {a : PicanteResult (Option V)}
    (h : T.ReadsOk p w i r q obs (.read d k)) (ha : T.Right p w r d a)
    (hok : T.account ≠ .answers → ∃ x, a = .ok x)
    (htold : i = 0 → T.told p w d r = some a) :
    T.ReadsOk p w i r q (obs ++ [(d, a)]) (k a) := by
  refine ⟨h.1.snoc ha hok, fun hi da hda => ?_⟩
  rcases List.mem_append.mp hda with hda | hda
  · exact h.2 hi da hda
  · obtain rfl := List.mem_singleton.mp hda
    exact htold hi

end Spec

end Picante

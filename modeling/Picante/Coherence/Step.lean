/-
# A step of an access

A step of an access keeps the world coherent, and leaves the access with what it relies on next
(`ActStep.coherent`); so does the result of a nested access (`Resumed.coherent`), and what a
task returns is in order (`ActStep.returned`).

What is asked of a step: it writes a result only while its view is at the revision the access
has read, and that revision was settled when it was read (`Timely`); and the events it logs are
ones that the account of failures allows (`Allows`), which is where the accepted revalidation of
a foreign record is excluded.
-/
import Picante.Coherence.Result

namespace Picante

open ReadProg Stamp

variable {V : Type}

/-! ## 1. What is asked of a step -/

/-- The events an account of failures can do with.  A foreign record is not accepted by
revalidation.  Where failures count, no revalidation of a foreign record fails, nor lies on a
cycle; where errors are answers, no revalidation fails, and there is no cycle.  An interned id
that is not there may be read only where errors mean nothing. -/
def Allows (acc : Account) : Event → Prop
  | .revalidated _ _ _ foreign verdict =>
    (foreign → verdict ≠ .accepted ∧ (acc = .failures → verdict ≠ .failed)) ∧
      (acc = .answers → verdict ≠ .failed)
  | .cycle _ _ underForeign => acc ≠ .answers ∧ (acc = .failures → underForeign = false)
  | .missing .. => acc = .values

/-- The next step stores a result in the cell, the shared cache or the in-flight entry. -/
def Pc.writes : Pc V → Bool
  | .reverify => true
  | .finishing (op :: _) =>
    match op with
    | .setCell _ | .putShared _ | .setEntry _ => true
    | _ => false
  | _ => false

/-- The activation reads its revision when it is settled, and writes only at that revision. -/
structure Timely (p : Past V) (w : World V) (i : ViewId) (a : Activation V) : Prop where
  reads : a.pc = .top → w.rev i ≤ p.settled
  writes : a.pc.writes → a.rev = w.rev i

namespace Spec

variable {T : Spec V} {p p' : Past V} {w w' : World V} {i : ViewId} {r : Revision} {q : DynKey}
  {a a' : Activation V}

/-! ## 2. A step that was taken -/

/-- A step of the activation `a` has led to `a'`: the world is kept, and `a'` is in order.  The
key of an activation never changes; its revision does when it is read anew. -/
structure Stepped (T : Spec V) (p : Past V) (w : World V) (i : ViewId) (a : Activation V)
    (p' : Past V) (w' : World V) (a' : Activation V) : Prop where
  kept : T.Kept p w p' w'
  ok : T.LocalOk p' w' i a'
  key : a'.key = a.key
  rev : a'.rev = w.rev i ∨ a'.rev = a.rev ∧ a.pc ≠ .top

/-- A step that keeps the world, from elsewhere than the head of the loop. -/
theorem Stepped.of_kept (hk : T.Kept p w p' w') (ha : T.LocalOk p w i a) (hne : a.pc ≠ .top)
    (hkey : a'.key = a.key) (hrev : a'.rev = a.rev)
    (hpc : a.rev = w.rev i → T.PcOk p' w' i a.rev a.key a'.guard a'.pc) :
    T.Stepped p w i a p' w' a' := by
  refine ⟨hk, ⟨hkey ▸ ha.derived, fun _ => ?_, fun _ => ?_, fun h => ?_⟩, hkey,
    .inr ⟨hrev, hne⟩⟩
  · rw [hrev, hk.settled]
    exact ha.settled hne
  · rw [hrev, hk.rev]
    exact ha.rev_le hne
  · rw [hrev, hk.rev] at h
    rw [hrev, hkey]
    exact hpc h

/-- A step that changes nothing that is cached. -/
theorem Stepped.quiet (hc : T.Coherent p w) (hi : i < w.viewCount) (hw : w.Quiet w')
    (ha : T.LocalOk p w i a) (hne : a.pc ≠ .top) (hkey : a'.key = a.key)
    (hrev : a'.rev = a.rev)
    (hpc : a.rev = w.rev i → T.PcOk p w i a.rev a.key a'.guard a'.pc) :
    T.Stepped p w i a p w' a' := by
  have hk := hc.quiet hw
  refine .of_kept hk ha hne hkey hrev fun h => ?_
  exact (hpc h).later hk.later hi h (hk.rev i) (ha.settled hne)

theorem quiet_refl (w : World V) : w.Quiet w := .of_same (.refl w)

/-! ## 3. The end of a touch -/

/-- **A dependency was touched.** -/
theorem Touched.stepped (hT : T.Fits) (hc : T.Coherent p w) (hi : i < w.viewCount)
    (ha : T.LocalOk p w i a) (hne : a.pc ≠ .top) (dep : Dep) {src : Source V}
    {rest : List Dep} {res : PicanteResult Revision}
    (hsrc : a.rev = w.rev i → T.RevalidateOk p w i a.rev a.key src (dep :: rest))
    (hok : ∀ c, res = .ok c → a.rev = w.rev i → ∃ b, T.Now p w i a.rev dep b c)
    (herr : ∀ e, res = .error e → a.rev = w.rev i →
      T.Derived dep ∧ T.Fails p w a.rev dep e)
    (ht : Touched w i a src rest res w' a') (hlog : ∀ e ∈ w'.log, Allows T.account e) :
    T.Stepped p w i a p w' a' := by
  cases ht with
  | @unchanged c h =>
    refine .quiet hc hi (quiet_refl w) ha hne rfl rfl fun hrev => ?_
    obtain ⟨b, hb⟩ := hok c rfl hrev
    exact (hsrc hrev).pass hb h
  | changed h =>
    refine .quiet hc hi (.of_same (.logged w _)) ha hne rfl rfl fun hrev => ?_
    have hprev := (hsrc hrev).1
    cases src with
    | cell deps ch foreign => trivial
    | shared F prev => exact hprev
  | @failed e =>
    refine .quiet hc hi (.of_same (.logged w _)) ha hne rfl rfl fun hrev => ?_
    have hallow := hlog _ (List.mem_cons_self ..)
    have hacc : T.account ≠ .answers := fun h => hallow.2 h rfl
    have hforeign : T.account = .failures → src.foreign a.rev = false := by
      intro h
      rw [hrev]
      exact Bool.eq_false_iff.mpr fun hf => (hallow.1 hf).2 h rfl
    obtain ⟨hd, hf⟩ := herr e rfl hrev
    exact finishOk_raise ((hsrc hrev).fails hT hacc hforeign hd hf) hacc

/-- Where a record that was not accepted leads. -/
theorem pcOk_refused {src : Source V} {guard : Option InFlightGuard}
    (h : PrevOk p r q src.prev) : T.PcOk p w i r q guard (afterRevalidation i r src false) := by
  cases src with
  | cell deps ch foreign => trivial
  | shared F prev => exact h

/-- **A record all of whose dependencies stand is accepted.** -/
theorem pcOk_accepted {src : Source V} {guard : Option InFlightGuard} (hq : T.Derived q)
    (h : T.RevalidateOk p w i r q src []) (hf : src.foreign r = false) :
    T.PcOk p w i r q guard (afterRevalidation i r src true) := by
  obtain ⟨v, hcheck, hsrc⟩ := h.2 hf
  obtain ⟨hright, hle, hd, hev⟩ := hcheck.done hq
  cases src with
  | cell deps ch foreign =>
    intro R hs hne
    rw [hsrc R hs hne]
    exact ⟨hright, hd⟩
  | shared F prev =>
    have hv : F.value = v := hsrc.1
    have hhonest := hcheck.honest hsrc
    subst hv
    exact finishOk_adopt ⟨hle, hright, hhonest⟩ (fun _ => hev) fun hi => .inl (hd hi)

/-! ## 4. The operations of a straight-line part -/

/-- After the cell was set, the result is the answer that went on record. -/
theorem FinishOk.answered_ready {guard : Option InFlightGuard} {R : ReadyRecord V}
    {ops : List (MicroOp V)} (h : T.FinishOk p w i r q guard (.setCell (.ready R) :: ops))
    (hans : i = 0 → p'.answer q r = some (.ok (some R.value))) (res : AccessResult V)
    (hres : .checked res ∈ ops) : T.Answered p' i r q res := by
  have hR : T.Right p w r q (.ok (some R.value)) := (h.each _ (List.mem_cons_self ..)).2.1.right
  have hok := h.each _ (List.mem_cons_of_mem _ hres)
  cases res with
  | ok vc =>
    obtain ⟨v, c⟩ := vc
    intro h0
    have hv := hR.functional (Sound.right hok)
    rw [hans h0, hv]
  | error e =>
    intro hacc _
    have he : T.Right p w r q (.error e) := by
      have hf : T.Fails p w r q e := hok
      rw [Fails, hacc] at hf
      exact hf
    cases hR.functional he

theorem FinishOk.answered_poisoned {guard : Option InFlightGuard} {e : PicanteError}
    {ver : Revision} {ops : List (MicroOp V)}
    (h : T.FinishOk p w i r q guard (.setCell (.poisoned e ver) :: ops))
    (hans : T.account = .answers → i = 0 → p'.answer q r = some (.error e))
    (res : AccessResult V) (hres : .checked res ∈ ops) : T.Answered p' i r q res := by
  have hf := (h.each _ (List.mem_cons_self ..)).2.1
  have hok := h.each _ (List.mem_cons_of_mem _ hres)
  cases res with
  | ok vc =>
    exact absurd (List.mem_cons_of_mem _ hres)
      (h.poisons e ver (List.mem_cons_self ..) vc.1 vc.2)
  | error e' =>
    intro hacc h0
    have hf' : T.Fails p w r q e' := hok
    rw [Fails, hacc] at hf hf'
    rw [hans hacc h0]
    exact congrArg some (Yields.functional hf hf')

/-- An entry is set to its result. -/
theorem Coherent.setEntry (hc : T.Coherent p w) (hr : r ≤ p.settled) {g : InFlightGuard}
    {st : InFlightState V} {ops : List (MicroOp V)}
    (h : T.FinishOk p w i r q (some g) (.setEntry st :: ops)) :
    T.Kept p w p (w.modifyRegistry (·.setState g.entry st)) := by
  have hkeys : ∀ e, ((w.registry.setState g.entry st).entries e).key =
      (w.registry.entries e).key ∧ ((w.registry.setState g.entry st).entries e).leader =
      (w.registry.entries e).leader := by
    intro e
    by_cases he : e = g.entry
    · subst he; simp [Registry.setState]
    · simp [Registry.setState, he]
  refine hc.register (·.setState g.entry st) (Nat.le_refl _) (fun e _ => hkeys e) (fun e => ?_)
    fun key e hf => .inl hf
  by_cases he : e = g.entry
  · subst he
    refine .inr ?_
    have hstate : ((w.registry.setState g.entry st).entries g.entry).state = st := by
      simp [Registry.setState]
    have hop := h.each _ (List.mem_cons_self ..)
    have hpub := h.published
    unfold EntryOk
    rw [hstate, (hkeys g.entry).1, (hkeys g.entry).2]
    cases st with
    | done v deps c =>
      obtain ⟨hg, hsound, hev⟩ := hop
      obtain ⟨-, hrev, hq, hlead⟩ := hg g rfl
      rw [hrev, hq, hlead]
      exact ⟨hr, hsound, hpub.1, hev⟩
    | failed err =>
      obtain ⟨hg, hf, hcov⟩ := hop
      obtain ⟨-, hrev, hq, hlead⟩ := hg g rfl
      rw [hrev, hq, hlead]
      exact ⟨hr, hf, hcov⟩
    | running => trivial
    | cancelled => trivial
  · exact .inl ⟨by simp [Registry.setState, he], hkeys e⟩

/-- Waiters of an entry are woken. -/
theorem Coherent.notifyEntry (hc : T.Coherent p w) (e : EntryId) :
    T.Kept p w p (w.modifyRegistry (·.notify e)) := by
  have hsame : ∀ e', ((w.registry.notify e).entries e').state = (w.registry.entries e').state ∧
      ((w.registry.notify e).entries e').key = (w.registry.entries e').key ∧
      ((w.registry.notify e).entries e').leader = (w.registry.entries e').leader := by
    intro e'
    by_cases he : e' = e
    · subst he; simp [Registry.notify]
    · simp [Registry.notify, he]
  exact hc.register (·.notify e) (Nat.le_refl _) (fun e' _ => (hsame e').2)
    (fun e' => .inl (hsame e')) fun key e' hf => .inl hf

/-- An entry is removed from the registry. -/
theorem Coherent.unregister (hc : T.Coherent p w) (key : InFlightKey) :
    T.Kept p w p (w.modifyRegistry (·.remove key)) := by
  refine hc.register (·.remove key) (Nat.le_refl _) (fun e _ => ⟨rfl, rfl⟩)
    (fun e => .inl ⟨rfl, rfl, rfl⟩) fun key' e hf => .inl ?_
  simp only [Registry.remove] at hf
  by_cases hk : key' = key
  · subst hk; simp at hf
  · rwa [Function.update_of_ne hk] at hf

/-- A new entry is filed. -/
theorem Coherent.lead (hc : T.Coherent p w) (key : InFlightKey) (leader : ViewId) :
    T.Kept p w p (w.modifyRegistry (·.lead key leader)) := by
  have hother : ∀ e, e < w.registry.nextEntry →
      (w.registry.lead key leader).entries e = w.registry.entries e := by
    intro e he
    exact Function.update_of_ne (Nat.ne_of_lt he) ..
  refine hc.register (·.lead key leader) (Nat.le_succ _) (fun e he => ?_) (fun e => ?_)
    fun key' e hf => ?_
  · rw [hother e he]
    exact ⟨rfl, rfl⟩
  · by_cases he : e = w.registry.nextEntry
    · subst he
      refine .inr ?_
      simp only [EntryOk, Registry.lead, Function.update_self]
    · exact .inl (by simp [Registry.lead, he])
  · by_cases hk : key' = key
    · subst hk
      have he : w.registry.nextEntry = e := by simpa [Registry.lead] using hf
      subst he
      exact .inr ⟨Nat.lt_succ_self _, by simp [Registry.lead]⟩
    · exact .inl (by simpa [Registry.lead, hk] using hf)

/-! ## 5. The steps -/

/-- The next straight-line operation was carried out, and the world is kept. -/
theorem Stepped.tail (hk : T.Kept p w p' w') (ha : T.LocalOk p w i a)
    {op : MicroOp V} {ops : List (MicroOp V)} (hpc : a.pc = .finishing (op :: ops))
    (hkey : a'.key = a.key) (hrev : a'.rev = a.rev) (hpc' : a'.pc = .finishing ops)
    (hg : a'.guard = a.guard ∨ a'.guard = none)
    (hset : a.rev = w.rev i → op.setsCell = true →
      ∀ res, .checked res ∈ ops → T.Answered p' i a.rev a.key res)
    (hput : a.rev = w.rev i → op.putsShared = true → w'.NoOlder a.key a.rev) :
    T.Stepped p w i a p' w' a' := by
  have hne : a.pc ≠ .top := by rw [hpc]; exact nofun
  refine .of_kept hk ha hne hkey hrev fun h => ?_
  have hfin : T.FinishOk p w i a.rev a.key a.guard (op :: ops) := by
    have := ha.pc h
    rwa [hpc] at this
  have htail := (hfin.later hk.later (ha.settled hne)).tail (hset h) (hput h)
  rw [hpc']
  rcases hg with hg | hg
  · rw [hg]
    exact htail
  · -- without its guard, an activation has nothing left to guard
    rw [hg]
    refine ⟨htail.shape, fun op' hop => ?_, htail.answered, htail.poisons, htail.published⟩
    have hok := htail.each op' hop
    cases op' with
    | setEntry st =>
      cases st with
      | done v deps c => exact ⟨nofun, hok.2⟩
      | failed e => exact ⟨nofun, hok.2⟩
      | running => trivial
      | cancelled => trivial
    | setCell st => cases st <;> exact hok
    | updateDeps _ | notifyCell | putShared _ | notifyEntry | unregister | checked _ | raise _ =>
      exact hok

variable [DecidableEq V] {task : TaskId} {below : List (Activation V)}

/-- **A step keeps the world coherent, and leaves the activation in order.** -/
theorem ActStep.coherent (hT : T.Fits) (hc : T.Coherent p w) (hi : i < w.viewCount)
    (ha : T.LocalOk p w i a) (ht : Timely p w i a)
    (hloop : T.account = .failures → ∀ d, d ∈ (a :: below).map (·.key) →
      (segment d (a :: below)).any (·.touchesForeign (w.rev i)) = false → a.rev = w.rev i →
      Calls (T.env w (p.content (w.rev i))) a.key d →
      Relation.TransGen (Calls (T.env w (p.content (w.rev i)))) d d)
    (hlead : T.account = .answers → i = 0 → ∀ e seen, a.pc = .followRead e seen →
      ∀ err, (w.registry.entries e).state = .failed err → (w.registry.entries e).leader = 0)
    (h : ActStep T.schema w i task below a w' (.goto a'))
    (hlog : ∀ e ∈ w'.log, Allows T.account e) : ∃ p', T.Stepped p w i a p' w' a' := by
  -- what the activation relies on now
  have hpcok := ha.pc
  have hset : a.pc ≠ .top → a.rev = w.rev i → w.rev i ≤ p.settled :=
    fun hne hrev => hrev ▸ ha.settled hne
  cases h with
  | top hpc =>
    refine ⟨p, hc.quiet (quiet_refl w), ⟨ha.derived, fun _ => ht.reads hpc,
      fun _ => Nat.le_refl _, fun _ => trivial⟩, rfl, .inl rfl⟩
  | listen hpc | retry hpc _ | park hpc _ | wake hpc _ =>
    exact ⟨p, .quiet hc hi (quiet_refl w) ha (by rw [hpc]; rintro ⟨⟩) rfl rfl
      fun _ => trivial⟩
  | overtaken hpc =>
    have hne : a.pc ≠ .top := by rcases hpc with hpc | hpc <;> (rw [hpc]; rintro ⟨⟩)
    exact ⟨p, .quiet hc hi (quiet_refl w) ha hne rfl rfl fun _ => trivial⟩
  | followCancelled hpc | restart hpc _ =>
    exact ⟨p, .quiet hc hi (quiet_refl w) ha (by rw [hpc]; rintro ⟨⟩) rfl rfl
      fun _ => trivial⟩
  | hit hpc hs hr =>
    refine ⟨p, .quiet hc hi (quiet_refl w) ha (by rw [hpc]; rintro ⟨⟩) rfl rfl fun hrev => ?_⟩
    rw [hrev]
    exact hc.hit hs (hr.trans hrev)
  | stale hpc hs hr =>
    refine ⟨p, .quiet hc hi (quiet_refl w) ha (by rw [hpc]; rintro ⟨⟩) rfl rfl fun hrev => ?_⟩
    rw [hrev] at hr ⊢
    exact hc.stale hs hr
  | poison hpc hs =>
    refine ⟨p, .quiet hc hi (quiet_refl w) ha (by rw [hpc]; rintro ⟨⟩) rfl rfl fun hrev => ?_⟩
    rw [hrev] at hs ⊢
    exact hc.poison hs
  | @accept src hpc =>
    refine ⟨p, .quiet hc hi (.of_same (.logged w _)) ha (by rw [hpc]; rintro ⟨⟩) rfl rfl
      fun hrev => ?_⟩
    have hallow := hlog _ (List.mem_cons_self ..)
    have hforeign : src.foreign a.rev = false := by
      rw [hrev]
      exact Bool.eq_false_iff.mpr fun hf => (hallow.1 hf).1 rfl
    have hsrc := hpcok hrev
    rw [hpc] at hsrc
    exact pcOk_accepted ha.derived hsrc hforeign
  | unregistered hpc hr =>
    refine ⟨p, .quiet hc hi (.of_same (.logged w _)) ha (by rw [hpc]; rintro ⟨⟩) rfl rfl
      fun hrev => ?_⟩
    have hsrc := hpcok hrev
    rw [hpc] at hsrc
    exact pcOk_refused hsrc.1
  | @touchInput src dep rest _ _ hpc hk htouch =>
    have hne : a.pc ≠ .top := by rw [hpc]; rintro ⟨⟩
    refine ⟨p, Touched.stepped hT hc hi ha hne dep (fun hrev => ?_) (fun c hres hrev => ?_)
      (fun e hres => by cases hres) htouch hlog⟩
    · have hsrc := hpcok hrev
      rwa [hpc] at hsrc
    · cases hres
      rw [hrev]
      exact ⟨_, hc.now_input (hset hne hrev) hk⟩
  | @touchInterned src dep rest _ _ v hpc hk hv htouch =>
    have hne : a.pc ≠ .top := by rw [hpc]; rintro ⟨⟩
    refine ⟨p, Touched.stepped hT hc hi ha hne dep (fun hrev => ?_) (fun c hres hrev => ?_)
      (fun e hres => by cases hres) htouch hlog⟩
    · have hsrc := hpcok hrev
      rwa [hpc] at hsrc
    · cases hres
      exact ⟨_, now_interned hk hv i a.rev⟩
  | touchMissing hpc _ _ =>
    have hval : T.account = .values := hlog _ (List.mem_cons_of_mem _ (List.mem_cons_self ..))
    refine ⟨p, .quiet hc hi (.of_same ((World.Same.logged w _).trans (.logged _ _))) ha
      (by rw [hpc]; rintro ⟨⟩) rfl rfl fun _ => ?_⟩
    exact finishOk_raise (by rw [Fails, hval]; trivial) (by rw [hval]; decide)
  | @readMissing prev d k deps hpc _ _ =>
    have hval : T.account = .values := hlog _ (List.mem_cons_self ..)
    have hne : T.account ≠ .answers := by
      rw [hval]
      decide
    refine ⟨p, .quiet hc hi (.of_same (.logged w _)) ha (by rw [hpc]; rintro ⟨⟩) rfl rfl
      fun hrev => ?_⟩
    have hcomp := hpcok hrev
    rw [hpc] at hcomp
    obtain ⟨hprev, hg, ⟨obs, hobs, rfl⟩ | ⟨-, e, he, -⟩⟩ := hcomp
    · -- the program passes the error on
      obtain ⟨e', he'⟩ :=
        ((hT.suits hne a.key).follows hobs.1.1).1 (World.missingInterned T.schema d)
      exact ⟨hprev, hg, .inr ⟨hne, e', he', by rw [Fails, hval]; trivial⟩⟩
    · cases he
  | @touchCycle src dep rest hpc hk hmem =>
    have hne : a.pc ≠ .top := by rw [hpc]; rintro ⟨⟩
    refine ⟨p, .quiet hc hi (.of_same ((World.Same.logged w _).trans (.logged _ _))) ha hne rfl
      rfl fun hrev => ?_⟩
    have hsrc := hpcok hrev
    rw [hpc] at hsrc
    have hcycle := hlog _ (List.mem_cons_of_mem _ (List.mem_cons_self ..))
    have hfailed := hlog _ (List.mem_cons_self ..)
    have hforeign : T.account = .failures → src.foreign a.rev = false := by
      intro hacc
      rw [hrev]
      exact Bool.eq_false_iff.mpr fun hf => (hfailed.1 hf).2 hacc rfl
    have hfails : T.Fails p w a.rev dep (.cycle dep ((a :: below).map (·.key)).reverse) := by
      refine Account.fails_of_loop hcycle.1 fun hacc => ?_
      obtain ⟨obs, k, hk'⟩ := hsrc.reads hT hcycle.1 (hforeign hacc)
      rw [hrev] at hk' ⊢
      exact hloop hacc dep hmem (hcycle.2 hacc) hrev (hk'.calls hcycle.1 (derived_env.mpr hk))
    exact finishOk_raise (hsrc.fails hT hcycle.1 hforeign hk hfails) hcycle.1
  | @reverify R hpc hs =>
    have hrev := ht.writes (by rw [hpc]; rfl)
    have hne : a.pc ≠ .top := by rw [hpc]; rintro ⟨⟩
    have hle := hset hne hrev
    have hstale := hpcok hrev
    rw [hpc, hrev] at hstale
    have hR := hc.ready i a.key R hs
    -- the record in the cell is the one that was revalidated, or has been verified since
    have hright : T.Right p w (w.rev i) a.key (.ok (some R.value)) ∧
        (i = 0 → T.Covered p w a.key (w.rev 0) (.ok R.value)) := by
      by_cases hver : R.verifiedAt = w.rev i
      · refine ⟨hR.right hver, fun h0 => ?_⟩
        subst h0
        obtain ⟨-, out, hout, hcov⟩ := hc.answered _ _ _ (hc.ready_answered _ R hs hver)
        cases out with
        | ok v =>
          obtain rfl : R.value = v := by simpa [Except.map] using hout
          exact hcov
        | error e => cases hout
      · obtain ⟨hright, hd⟩ := hstale R hs hver
        refine ⟨hright, fun h0 => ?_⟩
        subst h0
        exact .inl (hd rfl)
    have hsound : T.Sound p w (w.rev i) a.key R.value R.changedAt :=
      ⟨Nat.le_trans hR.changed_le hR.verified_le, hright.1, hR.honest⟩
    obtain ⟨p', hk, hans⟩ := hc.setReady (R := { R with verifiedAt := a.rev }) hle hrev hsound
      (fun hn => (hR.evidence hn).mono hR.verified_le) hright.2
    refine ⟨p', .of_kept hk ha hne rfl rfl fun _ => ?_⟩
    have hsound' : T.Sound p w a.rev a.key R.value R.changedAt := hrev ▸ hsound
    refine finishOk_checked (hk.later.sound (ha.settled hne) hsound') fun h0 => ?_
    subst h0
    rw [hrev]
    exact hans rfl
  | @start prev hpc hs =>
    have hk := hc.clear (.running a.rev ⟨task, below.length⟩) rfl i a.key
    have hne : a.pc ≠ .top := by rw [hpc]; rintro ⟨⟩
    refine ⟨p, .of_kept hk ha hne rfl rfl fun hrev => ?_⟩
    rw [hrev]
    rcases hs with ⟨R, hs, -, rfl⟩ | ⟨-, rfl⟩
    · exact hc.prevOk hs
    · exact prevOk_none
  | sharedMiss hpc hw hs =>
    have hne : a.pc ≠ .top := by rw [hpc]; rintro ⟨⟩
    have hpc' := hpcok
    rw [hpc] at hpc'
    rcases hw with rfl | rfl
    · exact ⟨p, .quiet hc hi (.looked w _) ha hne rfl rfl hpc'⟩
    · have hk := hc.evict (w.scope i) a.key
      have hk' := hk.coherent.quiet (.looked _ (w.lookups + 1))
      exact ⟨p, .of_kept (hk.trans hc hk') ha hne rfl rfl hpc'⟩
  | sharedHit hpc hs hr =>
    refine ⟨p, .quiet hc hi (.looked w _) ha (by rw [hpc]; rintro ⟨⟩) rfl rfl fun hrev => ?_⟩
    show T.FinishOk p w i a.rev a.key a.guard (adoptOps i a.rev _)
    rw [hrev] at hr ⊢
    exact hc.sharedHit hs hr
  | sharedStale hpc hs hr =>
    refine ⟨p, .quiet hc hi (.looked w _) ha (by rw [hpc]; rintro ⟨⟩) rfl rfl fun hrev => ?_⟩
    have hprev := hpcok hrev
    rw [hpc] at hprev
    rw [hrev] at hr hprev ⊢
    exact hc.sharedStale hs hr hprev
  | @follow prev e hpc hf =>
    refine ⟨p, .quiet hc hi (quiet_refl w) ha (by rw [hpc]; rintro ⟨⟩) rfl rfl fun _ => ?_⟩
    obtain ⟨hlt, hkey⟩ := hc.filed _ e hf
    exact ⟨hlt, by rw [hkey], by rw [hkey]⟩
  | @lead prev hpc hf =>
    have hne : a.pc ≠ .top := by rw [hpc]; rintro ⟨⟩
    have hk := hc.lead ⟨w.scope i, a.rev, a.key⟩ i
    have hk' := hk.coherent.quiet (.called _ (w.calls + 1))
    refine ⟨p, .of_kept (hk.trans hc hk') ha hne rfl rfl fun hrev => ?_⟩
    have hprev := hpcok hrev
    rw [hpc] at hprev
    refine ⟨hprev, fun g hg => ?_, .inl ⟨[], ⟨?_, fun _ _ h => absurd h List.not_mem_nil⟩, rfl⟩⟩
    · cases hg
      simp [World.modifyRegistry, Registry.lead]
    · rw [hT.deterministic]
      exact .refl _
  | @followReset e hpc =>
    have hk := hc.clear .vacant rfl i a.key
    refine ⟨p, .of_kept hk ha (by rw [hpc]; rintro ⟨⟩) rfl rfl fun hrev => ?_⟩
    have he := hpcok hrev
    rw [hpc] at he
    exact he
  | followListen hpc | followPark hpc | followWake hpc =>
    refine ⟨p, .quiet hc hi (quiet_refl w) ha (by rw [hpc]; rintro ⟨⟩) rfl rfl fun hrev => ?_⟩
    have he := hpcok hrev
    rw [hpc] at he
    exact he
  | @followDone e seen v deps c hpc hs =>
    refine ⟨p, .quiet hc hi (quiet_refl w) ha (by rw [hpc]; rintro ⟨⟩) rfl rfl fun hrev => ?_⟩
    have he := hpcok hrev
    rw [hpc] at he
    exact hc.followDone hs he
  | @followFailed e seen err hpc hs =>
    refine ⟨p, .quiet hc hi (quiet_refl w) ha (by rw [hpc]; rintro ⟨⟩) rfl rfl fun hrev => ?_⟩
    have he := hpcok hrev
    rw [hpc] at he
    exact hc.followFailed hs he fun hacc h0 => hlead hacc h0 e seen hpc err hs
  | @finalize prev out deps hpc =>
    refine ⟨p, .quiet hc hi (quiet_refl w) ha (by rw [hpc]; rintro ⟨⟩) rfl rfl fun hrev => ?_⟩
    have hcomp := hpcok hrev
    rw [hpc] at hcomp
    obtain ⟨hprev, hg, hprog⟩ := hcomp
    refine finishOk_finalize ha.derived hprev hg (hprog.imp id ?_)
    rintro ⟨hacc, e, he, hf⟩
    cases he
    exact ⟨hacc, e, rfl, hf⟩
  | @readInput prev d k deps hpc hk =>
    have hne : a.pc ≠ .top := by rw [hpc]; rintro ⟨⟩
    refine ⟨p, .quiet hc hi (quiet_refl w) ha hne rfl rfl fun hrev => ?_⟩
    have hcomp := hpcok hrev
    rw [hpc] at hcomp
    obtain ⟨hprev, hg, ⟨obs, hobs, rfl⟩ | ⟨-, e, he, -⟩⟩ := hcomp
    · have hnow := hc.now_input (hset hne hrev) hk
      rw [← hrev] at hnow
      exact ⟨hprev, hg, .inl ⟨_, hobs.snoc hnow.right (fun _ => ⟨_, rfl⟩) hnow.told, by simp⟩⟩
    · cases he
  | @readInterned prev d k deps v hpc hk hv =>
    refine ⟨p, .quiet hc hi (quiet_refl w) ha (by rw [hpc]; rintro ⟨⟩) rfl rfl fun hrev => ?_⟩
    have hcomp := hpcok hrev
    rw [hpc] at hcomp
    obtain ⟨hprev, hg, ⟨obs, hobs, rfl⟩ | ⟨-, e, he, -⟩⟩ := hcomp
    · have hnow := now_interned (p := p) hk hv i a.rev
      exact ⟨hprev, hg, .inl ⟨_, hobs.snoc hnow.right (fun _ => ⟨_, rfl⟩) hnow.told, by simp⟩⟩
    · cases he
  | @readCycle prev d k deps hpc hk hmem =>
    refine ⟨p, .quiet hc hi (.of_same (.logged w _)) ha (by rw [hpc]; rintro ⟨⟩) rfl rfl
      fun hrev => ?_⟩
    have hcomp := hpcok hrev
    rw [hpc] at hcomp
    obtain ⟨hprev, hg, ⟨obs, hobs, rfl⟩ | ⟨-, e, he, -⟩⟩ := hcomp
    · have hcycle := hlog _ (List.mem_cons_self ..)
      have hd : (T.env w (p.content a.rev)).derived d = true := derived_env.mpr hk
      have hfails : T.Fails p w a.rev d (.cycle d ((a :: below).map (·.key)).reverse) := by
        refine Account.fails_of_loop hcycle.1 fun hacc => ?_
        have hcalls := hobs.1.calls hcycle.1 hd
        rw [hrev] at hcalls ⊢
        exact hloop hacc d hmem (hcycle.2 hacc) hrev hcalls
      rcases hobs.1.read_error hT.suits hd hfails with ⟨hacc, -⟩ | ⟨hacc, e', he', hf⟩
      · exact absurd hacc hcycle.1
      · exact ⟨hprev, hg, .inr ⟨hacc, e', he', hf⟩⟩
    · cases he
  | updateDeps hpc =>
    exact ⟨p, .tail (hc.quiet (.updateQueryDeps w i a.key _)) ha hpc rfl rfl rfl (.inl rfl)
      (fun _ h => by cases h) fun _ h => by cases h⟩
  | @setCell st ops hpc =>
    have hrev := ht.writes (by rw [hpc]; rfl)
    have hle := hset (by rw [hpc]; rintro ⟨⟩) hrev
    have hfin := hpcok hrev
    rw [hpc] at hfin
    have hop := hfin.each _ (List.mem_cons_self ..)
    cases st with
    | ready R =>
      obtain ⟨hver, hsound, hev, hcov⟩ := hop
      rw [hrev] at hver hsound hev hcov
      obtain ⟨p', hk, hans⟩ := hc.setReady hle hver hsound hev
        fun h0 => by subst h0; exact hcov rfl
      refine ⟨p', .tail hk ha hpc rfl rfl rfl (.inl rfl) (fun _ _ => ?_) fun _ h => by cases h⟩
      refine hfin.answered_ready fun h0 => ?_
      rw [hrev]
      subst h0
      exact hans rfl
    | poisoned e ver =>
      obtain ⟨rfl, hf, hcov⟩ := hop
      rw [hrev] at hf hcov
      obtain ⟨p', hk, hans⟩ := hc.setPoisoned hle hf
        fun hacc h0 => by subst h0; exact hcov hacc rfl
      rw [← hrev] at hk
      refine ⟨p', .tail hk ha hpc rfl rfl rfl (.inl rfl) (fun _ _ => ?_) fun _ h => by cases h⟩
      refine hfin.answered_poisoned fun hacc h0 => ?_
      rw [hrev]
      subst h0
      exact hans hacc rfl
    | vacant => exact hop.elim
    | running started o => exact hop.elim
  | notifyCell hpc =>
    exact ⟨p, .tail (hc.quiet (.notifyCell w i a.key)) ha hpc rfl rfl rfl (.inl rfl)
      (fun _ h => by cases h) fun _ h => by cases h⟩
  | @putShared F ops hpc =>
    have hrev := ht.writes (by rw [hpc]; rfl)
    have hfin := hpcok hrev
    rw [hpc] at hfin
    obtain ⟨hver, hsound, hev⟩ := hfin.each _ (List.mem_cons_self ..)
    rw [hrev] at hver hsound hev
    obtain ⟨hk, hold⟩ :=
      hc.publish (hset (by rw [hpc]; rintro ⟨⟩) hrev) hver hsound hev
    refine ⟨p, .tail hk ha hpc rfl rfl rfl (.inl rfl) (fun _ h => by cases h) fun _ _ => ?_⟩
    rw [hrev]
    exact hold
  | @setEntry st ops g hpc hg =>
    have hrev := ht.writes (by rw [hpc]; rfl)
    have hfin := hpcok hrev
    rw [hpc, hg] at hfin
    have hk := hc.setEntry (ha.settled (by rw [hpc]; rintro ⟨⟩)) hfin
    exact ⟨p, .tail hk ha hpc rfl rfl rfl (.inl rfl) (fun _ h => by cases h)
      fun _ h => by cases h⟩
  | @notifyEntry ops g hpc hg =>
    exact ⟨p, .tail (hc.notifyEntry g.entry) ha hpc rfl rfl rfl (.inl rfl)
      (fun _ h => by cases h) fun _ h => by cases h⟩
  | @unregister ops g hpc hg =>
    exact ⟨p, .tail (hc.unregister g.key) ha hpc rfl rfl rfl (.inr rfl)
      (fun _ h => by cases h) fun _ h => by cases h⟩
  | @unguarded op ops hpc hop hg =>
    have hno : op.setsCell = false ∧ op.putsShared = false := by
      rcases hop with ⟨st, rfl⟩ | rfl | rfl <;> exact ⟨rfl, rfl⟩
    exact ⟨p, .tail (hc.quiet (quiet_refl w)) ha hpc rfl rfl rfl (.inl rfl)
      (fun _ h => by cases hno.1.symm.trans h) fun _ h => by cases hno.2.symm.trans h⟩

/-- A nested access is started: the activation waits for it, and the new one has read nothing. -/
theorem ActStep.called (ha : T.LocalOk p w i a) {child : DynKey}
    (h : ActStep T.schema w i task below a w' (.call a' child)) :
    w' = w ∧ T.LocalOk p w i a' ∧ a'.key = a.key ∧ a'.rev = a.rev ∧ a.pc ≠ .top ∧
      a'.pc.waitsFor child ∧ T.Derived child := by
  have hpcok := ha.pc
  cases h with
  | @touchCall src dep rest hpc hk _ =>
    have hne : a.pc ≠ .top := by rw [hpc]; exact nofun
    rw [hpc] at hpcok
    exact ⟨rfl, ⟨ha.derived, fun _ => ha.settled hne, fun _ => ha.rev_le hne,
      fun hrev => ⟨hpcok hrev, hk⟩⟩, rfl, rfl, hne, rfl, hk⟩
  | @readCall prev d k deps hpc hk _ =>
    have hne : a.pc ≠ .top := by rw [hpc]; exact nofun
    rw [hpc] at hpcok
    refine ⟨rfl, ⟨ha.derived, fun _ => ha.settled hne, fun _ => ha.rev_le hne, fun hrev => ?_⟩,
      rfl, rfl, hne, rfl, hk⟩
    obtain ⟨hprev, hg, ⟨obs, hobs, rfl⟩ | ⟨-, e, he, -⟩⟩ := hpcok hrev
    · exact ⟨hprev, hg, hk, obs, hobs, rfl⟩
    · cases he

/-- **What is returned is in order**; a value is only ever returned at the revision the view is
at. -/
theorem ActStep.returned (ha : T.LocalOk p w i a) {res : AccessResult V}
    (h : ActStep T.schema w i task below a w' (.ret res)) :
    w' = w ∧ a.pc ≠ .top ∧ (∀ vc, res = .ok vc → a.rev = w.rev i) ∧
      (a.rev = w.rev i → T.ResultOk p w a.rev a.key res ∧ T.Answered p i a.rev a.key res) := by
  have hpcok := ha.pc
  cases h with
  | @«return» _ ops hpc hr =>
    rw [hpc] at hpcok
    refine ⟨rfl, by rw [hpc]; exact nofun, fun _ _ => hr.symm, fun hrev => ?_⟩
    have hfin := hpcok hrev
    obtain rfl : ops = [] := hfin.shape
    refine ⟨hfin.each _ (List.mem_cons_self ..), hfin.answered ?_ res (List.mem_cons_self ..)⟩
    intro op hop
    obtain rfl := List.mem_singleton.mp hop
    rfl
  | @raise e ops hpc =>
    rw [hpc] at hpcok
    refine ⟨rfl, (by rw [hpc]; exact nofun), (fun _ h => by cases h), fun hrev => ?_⟩
    obtain ⟨hf, hacc⟩ := (hpcok hrev).each _ (List.mem_cons_self ..)
    exact ⟨hf, fun h => absurd h hacc⟩

omit [DecidableEq V] in
/-- **The result of a nested access keeps the activation that waited for it in order.** -/
theorem Resumed.coherent (hT : T.Fits) (hc : T.Coherent p w) (hi : i < w.viewCount)
    (ha : T.LocalOk p w i a) {k : DynKey} (hwait : a.pc.waitsFor k) (hk : T.Derived k)
    {res : AccessResult V}
    (hres : a.rev = w.rev i → T.ResultOk p w a.rev k res ∧ T.Answered p i a.rev k res)
    (h : Resumed w i a res w' a') (hlog : ∀ e ∈ w'.log, Allows T.account e) :
    T.Stepped p w i a p w' a' := by
  have hpcok := ha.pc
  cases h with
  | @touched src dep rest _ _ hpc ht =>
    have hne : a.pc ≠ .top := by rw [hpc]; exact nofun
    rw [hpc] at hpcok hwait
    obtain rfl : dep = k := hwait
    refine Touched.stepped hT hc hi ha hne dep (fun hrev => (hpcok hrev).1) (fun c hok hrev => ?_)
      (fun e herr hrev => ⟨hk, ?_⟩) ht hlog
    · cases res with
      | error e => cases hok
      | ok vc =>
        obtain ⟨v, c'⟩ := vc
        cases hok
        obtain ⟨hsound, hans⟩ := hres hrev
        exact ⟨_, Sound.now hsound hk hans⟩
    · cases res with
      | ok vc => cases herr
      | error e' =>
        cases herr
        exact (hres hrev).1
  | @answered prev d cont deps hpc =>
    have hne : a.pc ≠ .top := by rw [hpc]; exact nofun
    rw [hpc] at hpcok hwait
    obtain rfl : d = k := hwait
    refine .quiet hc hi (quiet_refl w) ha hne rfl rfl fun hrev => ?_
    obtain ⟨hprev, hg, -, obs, hobs, rfl⟩ := hpcok hrev
    obtain ⟨hresult, hans⟩ := hres hrev
    have hd : (T.env w (p.content a.rev)).derived d = true := derived_env.mpr hk
    cases res with
    | ok vc =>
      obtain ⟨v, c⟩ := vc
      have hnow := Sound.now hresult hk hans
      exact ⟨hprev, hg, .inl ⟨_, hobs.snoc hnow.right (fun _ => ⟨_, rfl⟩) hnow.told, by simp⟩⟩
    | error e =>
      rcases hobs.1.read_error hT.suits hd hresult with ⟨hacc, hreads⟩ | ⟨hacc, e', he', hf⟩
      · -- the error is an answer
        have hsnoc : T.ReadsOk p w i a.rev a.key (obs ++ [(d, .error e)]) (cont (.error e)) := by
          refine ⟨hreads, fun h0 da hda => ?_⟩
          rcases List.mem_append.mp hda with hda | hda
          · exact hobs.2 h0 da hda
          · obtain rfl := List.mem_singleton.mp hda
            rw [told_derived hk]
            exact hans hacc h0
        exact ⟨hprev, hg, .inl ⟨_, hsnoc, by simp⟩⟩
      · exact ⟨hprev, hg, .inr ⟨hacc, e', he', hf⟩⟩
  | idle hpc =>
    cases hp : a.pc with
    | touching src dep rest => exact absurd hp (hpc.1 src dep rest)
    | reading prev d k' deps => exact absurd hp (hpc.2 prev d k' deps)
    | _ => simp [hp, Pc.waitsFor] at hwait

end Spec

end Picante

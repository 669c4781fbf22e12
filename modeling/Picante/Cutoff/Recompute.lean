/-
# What makes a ready key compute again

An access to a key whose cell is ready revalidates the record there: it touches the recorded
dependencies and compares what they report with the record's `changed_at`.  A dependency that
reports no more than `verified_at` has not changed since the value was found to be right, and is
no reason to compute; but `try_revalidate` is handed `changed_at`, and after a cutoff, when the
value was computed again and came out the same, that is less than `verified_at`
(`cutoff_computes_again`).

* `Config.Touches` -- the touch of a recorded dependency, with what it reports.
* `Blamed` -- a reason to compute: a dependency that is not registered, whose touch failed, or
  that reports a change after the record was last verified.
* `recompute_is_blamed` -- where no touch reports a change between `changed_at` and
  `verified_at`, only a reason makes the key compute, and without one the access returns the
  cached value, verified at its own revision.
-/
import Picante.Cutoff.Law

namespace Picante

open Config

variable {V : Type}

/-! ## 1. Touches -/

/-- The next step of task `t` answers the touch of `dep`, which its access at depth `d` makes to
revalidate `src`, with the result given. -/
inductive Config.Touches [DecidableEq V] (S : Schema V) (c : Config V) (t : TaskId) (d : Nat)
    (src : Source V) (dep : Dep) : PicanteResult Revision → Prop
  | input {a : Activation V} {below : List (Activation V)} {rest : List Dep}
      (hst : (c.tasks t).stack = a :: below) (hd : below.length = d)
      (hpc : a.pc = .revalidate src (dep :: rest)) (hk : S.sectionType dep.kind = .input) :
      Touches S c t d src dep (.ok ((c.world.inputs (c.tasks t).view).touch dep))
  | interned {a : Activation V} {below : List (Activation V)} {rest : List Dep} {v : V}
      (hst : (c.tasks t).stack = a :: below) (hd : below.length = d)
      (hpc : a.pc = .revalidate src (dep :: rest)) (hk : S.sectionType dep.kind = .interned)
      (hv : c.world.internedAt S dep = some v) : Touches S c t d src dep (.ok 0)
  | missing {a : Activation V} {below : List (Activation V)} {rest : List Dep}
      (hst : (c.tasks t).stack = a :: below) (hd : below.length = d)
      (hpc : a.pc = .revalidate src (dep :: rest)) (hk : S.sectionType dep.kind = .interned)
      (hv : c.world.internedAt S dep = none) :
      Touches S c t d src dep (.error (World.missingInterned S dep))
  | cycle {a : Activation V} {below : List (Activation V)} {rest : List Dep}
      (hst : (c.tasks t).stack = a :: below) (hd : below.length = d)
      (hpc : a.pc = .revalidate src (dep :: rest)) (hk : S.sectionType dep.kind = .derived)
      (hc : dep ∈ (a :: below).map (·.key)) :
      Touches S c t d src dep (.error (.cycle dep ((a :: below).map (·.key)).reverse))
  | derived {a p : Activation V} {below : List (Activation V)} {rest : List Dep} {w : World V}
      {r : AccessResult V} (hst : (c.tasks t).stack = a :: p :: below) (hd : below.length = d)
      (hpc : p.pc = .touching src dep rest) (hk : S.sectionType dep.kind = .derived)
      (hret : stepActivation S c.world (c.tasks t).view t (p :: below) a = some (w, .ret r)) :
      Touches S c t d src dep (r.map (·.2))

/-- No touch for the sake of a cell's own record reports a change that lies after the record's
`changed_at` and not after its `verified_at`. -/
def Conclusive [DecidableEq V] (S : Schema V) (c : Config V) (l : Label V) : Prop :=
  ∀ t d a src dep ch r, l = .step t → c.act t d = some a → src.isShared = false →
    c.Touches S t d src dep (.ok ch) → c.world.state (c.tasks t).view a.key = .ready r →
    ch ≤ r.changedAt ∨ r.verifiedAt < ch

/-- A step of task `t` that leaves its access at depth `d` in progress. -/
def During (t : TaskId) (d : Nat) (_ : Config V) (l : Label V) (c' : Config V) : Prop :=
  l = .step t ∧ d < (c'.tasks t).stack.length

/-- There was a reason to compute, on the way from `c` to `m`: a recorded dependency of `r` is
not registered, or its touch failed or reported a change after `r` was last verified. -/
def Blamed [DecidableEq V] (S : Schema V) (c : Config V) (t : TaskId) (d : Nat)
    (r : ReadyRecord V) (m : Config V) : Prop :=
  ∃ dep ∈ r.deps, S.registered dep.kind = false ∨
    ∃ ls₁ ls₂ m₁ src res, Trans.Steps (step S) (During t d) c ls₁ m₁ ∧
      Trans.Steps (step S) (During t d) m₁ ls₂ m ∧ m₁.Touches S t d src dep res ∧
      ∀ ch, res = .ok ch → r.verifiedAt < ch

/-- The next step of task `t` enters the loop of an access to `q`, at depth `d` of its stack,
and the cell of `q` is ready. -/
def Config.Enters (c : Config V) (t : TaskId) (d : Nat) (q : DynKey) (r : ReadyRecord V) : Prop :=
  (∃ a below, (c.tasks t).stack = a :: below ∧ below.length = d ∧ a.key = q ∧ a.pc = .top) ∧
    c.world.state 0 q = .ready r

/-- The compute function of the access is running. -/
def Pc.computes : Pc V → Bool
  | .computing .. | .reading .. => true
  | _ => false

/-! ## 2. The revalidation of a ready cell -/

/-- Where an access to `q` is that found the record `r` in its cell and has no reason to compute
yet: it looks at the cell, touches the dependencies, or has accepted the record. -/
inductive Checks (S : Schema V) (w : World V) (q : DynKey) (r : ReadyRecord V) : Pc V → Prop
  | top (hs : w.state 0 q = .ready r) : Checks S w q r .top
  | listen (hs : w.state 0 q = .ready r) : Checks S w q r .listen
  | observe {seen : Nat} (hs : w.state 0 q = .ready r) : Checks S w q r (.observe seen)
  | revalidate {rest : List Dep} (hrest : rest ⊆ r.deps) (hs : w.state 0 q = .ready r) :
      Checks S w q r (.revalidate (.cell r.deps r.changedAt r.foreign) rest)
  | touching {dep : Dep} {rest : List Dep} (hdep : dep ∈ r.deps) (hrest : rest ⊆ r.deps)
      (hk : S.sectionType dep.kind = .derived) (hs : w.state 0 q = .ready r) :
      Checks S w q r (.touching (.cell r.deps r.changedAt r.foreign) dep rest)
  | reverify (hs : w.state 0 q = .ready r) : Checks S w q r .reverify
  | cached (hs : w.state 0 q = .ready { r with verifiedAt := w.rev 0 }) :
      Checks S w q r (.finishing [.checked (.ok (r.value, r.changedAt))])

section checks

variable {S : Schema V} {w w' : World V} {q : DynKey} {r : ReadyRecord V} {pc : Pc V}

theorem Checks.of_eq (h : Checks S w q r pc) (hs : w'.state 0 q = w.state 0 q)
    (hrev : w'.rev 0 = w.rev 0) : Checks S w' q r pc := by
  cases h with
  | top h => exact .top (hs.trans h)
  | listen h => exact .listen (hs.trans h)
  | observe h => exact .observe (hs.trans h)
  | revalidate hrest h => exact .revalidate hrest (hs.trans h)
  | touching hdep hrest hk h => exact .touching hdep hrest hk (hs.trans h)
  | reverify h => exact .reverify (hs.trans h)
  | cached h => exact .cached (by rw [hs, hrev]; exact h)

theorem Checks.not_computes (h : Checks S w q r pc) : pc.computes = false := by
  cases h <;> rfl

/-- A touch was answered: the check goes on, or there is a reason to compute. -/
theorem Touched.checks {view : ViewId} {a a' : Activation V} {rest : List Dep}
    {res : PicanteResult Revision}
    (ht : Touched w view a (.cell r.deps r.changedAt r.foreign) rest res w' a')
    (hrest : rest ⊆ r.deps) (hs : w.state 0 q = .ready r)
    (hconcl : ∀ ch, res = .ok ch → ch ≤ r.changedAt ∨ r.verifiedAt < ch) :
    Checks S w' q r a'.pc ∨ ∀ ch, res = .ok ch → r.verifiedAt < ch := by
  cases ht with
  | unchanged _ => exact .inl (.revalidate hrest hs)
  | changed hch =>
    refine .inr fun ch h => ?_
    cases h
    exact (hconcl _ rfl).resolve_left (Nat.not_le.mpr hch)
  | failed => exact .inr nofun

end checks

section runs

variable [DecidableEq V] {S : Schema V} {c m m' : Config V} {t : TaskId} {d : Nat}
  {r : ReadyRecord V} {b : Activation V}

/-- The step of task `t` meets a reason to compute. -/
def Blames (S : Schema V) (m : Config V) (t : TaskId) (d : Nat) (r : ReadyRecord V) : Prop :=
  ∃ dep ∈ r.deps, S.registered dep.kind = false ∨
    ∃ src res, m.Touches S t d src dep res ∧ ∀ ch, res = .ok ch → r.verifiedAt < ch

/-- **A step of an access that has no reason to compute yet.** -/
theorem ActStep.checks {a a' : Activation V} {below : List (Activation V)} {w : World V}
    (hst : (m.tasks t).stack = a :: below) (hd : below.length = d) (hview : (m.tasks t).view = 0)
    (h : ActStep S m.world 0 t below a w (.goto a')) (ha : Checks S m.world a.key r a.pc)
    (hrev : a.pc = .top ∨ a.rev = m.world.rev 0) (hconcl : Conclusive S m (.step t)) :
    Checks S w a.key r a'.pc ∨ Blames S m t d r := by
  have hact : m.act t d = some a := hd ▸ act_top hst
  -- a touch that is answered at once
  have htouch : ∀ {dep rest res w}, a.pc = .revalidate (.cell r.deps r.changedAt r.foreign)
      (dep :: rest) → dep :: rest ⊆ r.deps → m.world.state 0 a.key = .ready r →
      m.Touches S t d (.cell r.deps r.changedAt r.foreign) dep res →
      Touched m.world 0 a (.cell r.deps r.changedAt r.foreign) rest res w a' →
      Checks S w a.key r a'.pc ∨ Blames S m t d r := by
    intro dep rest res w hpc hrest hs hres ht
    have hc := ht.checks (S := S) (List.subset_of_cons_subset hrest) hs fun ch hch =>
      hconcl t d a _ dep ch r rfl hact rfl (hch ▸ hres) (by rw [hview]; exact hs)
    exact hc.imp id fun hlate => ⟨dep, hrest (List.mem_cons_self ..), .inr ⟨_, res, hres, hlate⟩⟩
  cases h with
  | top hpc =>
    rw [hpc] at ha
    cases ha with
    | top hs => exact .inl (.listen hs)
  | listen hpc =>
    rw [hpc] at ha
    cases ha with
    | listen hs => exact .inl (.observe hs)
  | hit hpc hs' hr =>
    rw [hpc] at ha
    cases ha with
    | observe hs =>
      rw [hs] at hs'
      cases hs'
      have hver : r.verifiedAt = m.world.rev 0 :=
        hr.trans (hrev.resolve_left (by rw [hpc]; exact nofun))
      exact .inl (.cached (by rw [← hver]; exact hs))
  | stale hpc hs' _ =>
    rw [hpc] at ha
    cases ha with
    | observe hs =>
      rw [hs] at hs'
      cases hs'
      exact .inl (.revalidate (List.Subset.refl _) hs)
  | poison hpc hs' =>
    rw [hpc] at ha
    cases ha with
    | observe hs =>
      rw [hs] at hs'
      cases hs'
  | retry hpc hs' =>
    rw [hpc] at ha
    cases ha with
    | observe hs =>
      rw [hs] at hs'
      rcases hs' with hs' | ⟨e, ver, hs', -⟩ <;> cases hs'
  | park hpc hs' =>
    rw [hpc] at ha
    cases ha with
    | observe hs =>
      rw [hs] at hs'
      cases hs'
  | accept hpc =>
    rw [hpc] at ha
    cases ha with
    | revalidate _ hs => exact .inl (.reverify hs)
  | unregistered hpc hr =>
    rw [hpc] at ha
    cases ha with
    | revalidate hrest _ => exact .inr ⟨_, hrest (List.mem_cons_self ..), .inl hr⟩
  | touchInput hpc hk ht =>
    have hpc' := hpc
    rw [hpc] at ha
    cases ha with
    | revalidate hrest hs =>
      have hres := Touches.input (S := S) hst hd hpc' hk
      rw [hview] at hres
      exact htouch hpc' hrest hs hres ht
  | touchInterned hpc hk hv ht =>
    have hpc' := hpc
    rw [hpc] at ha
    cases ha with
    | revalidate hrest hs => exact htouch hpc' hrest hs (.interned hst hd hpc' hk hv) ht
  | touchMissing hpc hk hv =>
    have hpc' := hpc
    rw [hpc] at ha
    cases ha with
    | revalidate hrest hs =>
      exact .inr ⟨_, hrest (List.mem_cons_self ..), .inr ⟨_, _, .missing hst hd hpc' hk hv, nofun⟩⟩
  | touchCycle hpc hk hcyc =>
    have hpc' := hpc
    rw [hpc] at ha
    cases ha with
    | revalidate hrest hs =>
      exact .inr ⟨_, hrest (List.mem_cons_self ..), .inr ⟨_, _, .cycle hst hd hpc' hk hcyc, nofun⟩⟩
  | reverify hpc hs' =>
    rw [hpc] at ha
    cases ha with
    | reverify hs =>
      rw [hs] at hs'
      cases hs'
      refine .inl (.cached ?_)
      rw [World.state_setCell_self, World.rev_setCell,
        hrev.resolve_left (by rw [hpc]; exact nofun)]
  | overtaken hpc =>
    rcases hpc with hpc | hpc
    · rw [hpc] at ha
      cases ha with
      | reverify hs => exact .inl (.top hs)
    · rw [hpc] at ha
      cases ha
  | restart hpc hne =>
    rw [hpc] at ha
    exact absurd (hrev.resolve_left (by rw [hpc]; exact nofun)).symm hne
  | unguarded hpc hop _ =>
    rw [hpc] at ha
    cases ha with
    | cached _ => rcases hop with ⟨st, hop⟩ | hop | hop <;> cases hop
  | wake hpc | start hpc | sharedMiss hpc | sharedHit hpc | sharedStale hpc | follow hpc
  | lead hpc | followReset hpc | followListen hpc | followPark hpc | followDone hpc
  | followFailed hpc | followCancelled hpc | followWake hpc | finalize hpc | readInput hpc
  | readInterned hpc | readMissing hpc | readCycle hpc | updateDeps hpc | setCell hpc
  | notifyCell hpc | putShared hpc | setEntry hpc | notifyEntry hpc | unregister hpc =>
    rw [hpc] at ha
    cases ha

/-- A nested access is made for the touch of a derived dependency. -/
theorem ActStep.call_checks {a a' : Activation V} {below : List (Activation V)} {w w' : World V}
    {child : DynKey} (h : ActStep S w 0 t below a w' (.call a' child))
    (ha : Checks S w a.key r a.pc) : Checks S w a.key r a'.pc := by
  cases h with
  | touchCall hpc hk _ =>
    rw [hpc] at ha
    cases ha with
    | revalidate hrest hs =>
      exact .touching (hrest (List.mem_cons_self ..)) (List.subset_of_cons_subset hrest) hk hs
  | readCall hpc _ _ =>
    rw [hpc] at ha
    cases ha

omit [DecidableEq V] in
/-- An access below the top of the stack is for another key than the top one. -/
theorem OneView.key_ne (hm : OneView m) {a : Activation V} {below : List (Activation V)}
    (hst : (m.tasks t).stack = a :: below) (hact : m.act t d = some b) (hd : d ≠ below.length) :
    b.key ≠ a.key := by
  have hnest := hm.nested t
  rw [hst] at hnest
  rw [act_eq_below hst hd] at hact
  obtain ⟨above, below', heq, -⟩ := atDepth_eq_some hact
  have hmem : b ∈ below := by
    rw [heq]
    simp
  exact fun hkey => hnest.1 (hkey ▸ List.mem_map_of_mem hmem)

/-- **A step of the task, while it has no reason to compute.** -/
theorem Checks.taskStep (hm : OneView m) (hstep : TaskStep S m t m') (hact : m.act t d = some b)
    (hb : Checks S m.world b.key r b.pc) (hconcl : Conclusive S m (.step t))
    (hd : d < (m'.tasks t).stack.length) :
    (∃ b', m'.act t d = some b' ∧ b'.key = b.key ∧ Checks S m'.world b'.key r b'.pc) ∨
      Blames S m t d r := by
  have hview := hm.native.views t hstep.same_access.1
  cases hstep with
  | @goto a a' below w hst ha =>
    have hact' := @act_goto V m t t a below w d hst a'
    rw [hview] at ha
    by_cases htop : d = below.length
    · subst htop
      obtain rfl : a = b := Option.some.inj ((act_top hst).symm.trans hact)
      have hfresh := hm.calm.fresh t a (by simp [hst])
      rw [hview] at hfresh
      rcases ha.checks hst rfl hview hb hfresh hconcl with h | h
      · exact .inl ⟨a', by rw [hact', if_pos ⟨rfl, rfl⟩], ha.key, by rw [ha.key]; exact h⟩
      · exact .inr h
    · refine .inl ⟨b, by rw [hact', if_neg fun h => htop h.2]; exact hact, rfl, ?_⟩
      exact hb.of_eq (ha.keeps_other (hm.key_ne hst hact htop)).1 (ha.fixed.rev 0)
  | @call a a' below w child hst ha =>
    have hact' := @act_call V m t t a below w d hst a' (.enter child)
    have hlt : d ≠ below.length + 1 := by
      rintro rfl
      rw [act_eq_below hst (by simp)] at hact
      obtain ⟨above, below', heq, hlen⟩ := atDepth_eq_some hact
      have := congrArg List.length heq
      simp at this
      omega
    rw [hview] at ha
    obtain ⟨rfl, -, hkey, -⟩ := ha.call_pcOk .vacant
    by_cases htop : d = below.length
    · subst htop
      obtain rfl : a = b := Option.some.inj ((act_top hst).symm.trans hact)
      refine .inl ⟨a', by rw [hact', if_neg fun h => hlt h.2, if_pos ⟨rfl, rfl⟩], hkey, ?_⟩
      rw [hkey]
      exact ha.call_checks hb
    · exact .inl ⟨b, by rw [hact', if_neg fun h => hlt h.2, if_neg fun h => htop h.2]; exact hact,
        rfl, hb⟩
  | ret hst ha => simp [setTask] at hd
  | @resume a p p' below w w' res hst ha hp =>
    have hlen : d < below.length + 1 := by simpa [setTask] using hd
    have hact' := @act_resume V m t t a p below w' d hst p'
    rw [if_neg fun h => Nat.ne_of_lt hlen h.2] at hact'
    have hret := returns_of_actStep hst ha
    obtain rfl := ha.ret_world
    rw [hview] at hp
    by_cases htop : d = below.length
    · subst htop
      obtain rfl : p = b := by
        rw [act_eq_below hst (by simp), atDepth_cons, if_pos rfl] at hact
        exact Option.some.inj hact
      rw [if_pos ⟨rfl, rfl⟩] at hact'
      cases hp with
      | @touched src dep rest w' p' hpc ht =>
        rw [hpc] at hb
        cases hb with
        | touching hdep hrest hk hs =>
          have hres : m.Touches S t below.length (.cell r.deps r.changedAt r.foreign) dep
              (res.map (·.2)) := by
            obtain ⟨a₀, below₀, w₀, hst₀, -, hret₀⟩ := hret
            rw [hst] at hst₀
            cases hst₀
            exact .derived hst rfl hpc hk hret₀
          have hc := ht.checks (S := S) hrest hs fun ch hch =>
            hconcl t _ p _ dep ch r rfl hact rfl (hch ▸ hres) (by rw [hview]; exact hs)
          refine hc.imp (fun hc => ⟨p', hact', ht.key, by rw [ht.key]; exact hc⟩) fun hlate => ?_
          exact ⟨dep, hdep, .inr ⟨_, _, hres, hlate⟩⟩
      | answered hpc =>
        rw [hpc] at hb
        cases hb
      | idle _ => exact .inl ⟨p, hact', rfl, hb⟩
    · rw [if_neg fun h => htop h.2] at hact'
      exact .inl ⟨b, hact'.trans hact, rfl, hb.of_eq (hp.same.state 0 b.key) (hp.same.rev 0)⟩

/-! ## 3. The whole access -/

/-- A step that returns changes no cell. -/
theorem same_of_ret {a : Activation V} {below : List (Activation V)} {w : World V}
    {res : AccessResult V} (hst : (m.tasks t).stack = a :: below)
    (hret : stepActivation S m.world (m.tasks t).view t below a = some (w, .ret res))
    (hs : step S m (.step t) = some m') : m.world.Same m'.world := by
  obtain rfl := (actStep_of_step hret).ret_world
  have hmove : m' = m.move t below (m.world, .ret res) := by
    simpa [step, stepTask, hst, hret] using hs.symm
  subst hmove
  cases below with
  | nil => exact .refl _
  | cons p below => exact (resumed_cases m.world (m.tasks t).view p res).same

/-- A reason stays a reason. -/
theorem Blamed.later (h : Blamed S c t d r m) {l : Label V} (hs : step S m l = some m')
    (hl : During t d m l m') : Blamed S c t d r m' := by
  obtain ⟨dep, hdep, h | ⟨ls₁, ls₂, m₁, src, res, h₁, h₂, hres, hlate⟩⟩ := h
  · exact ⟨dep, hdep, .inl h⟩
  · exact ⟨dep, hdep, .inr ⟨ls₁, ls₂ ++ [l], m₁, src, res, h₁, .snoc h₂ hs hl, hres, hlate⟩⟩

/-- **An access that found its cell ready**, at any time before it returns: it is still checking
the record, or has met a reason to compute. -/
theorem checks_run (hc : OneView c) {q : DynKey} (henter : c.Enters t d q r) {ls : List (Label V)}
    (hrun : Trans.Steps (step S) (fun m l m' => During t d m l m' ∧ Conclusive S m l) c ls m) :
    OneView m ∧ m.world.rev 0 = c.world.rev 0 ∧
      ((∃ b, m.act t d = some b ∧ b.key = q ∧ Checks S m.world q r b.pc) ∨ Blamed S c t d r m) := by
  induction hrun with
  | nil =>
    obtain ⟨⟨a, below, hst, rfl, hkey, hpc⟩, hs⟩ := henter
    exact ⟨hc, rfl, .inl ⟨a, act_top hst, hkey, by rw [hpc]; exact .top hs⟩⟩
  | @snoc ls l m m' hls hl hok ih =>
    obtain ⟨hm, hrev, h⟩ := ih
    obtain ⟨⟨rfl, hd⟩, hconcl⟩ := hok
    have hstep := taskStep_of_step hl
    refine ⟨hm.step hl (.inl ⟨t, rfl⟩), (hstep.fixed.rev 0).trans hrev, ?_⟩
    rcases h with ⟨b, hact, rfl, hb⟩ | h
    · rcases hb.taskStep hm hstep hact hconcl hd with ⟨b', hact', hkey, hb'⟩ | ⟨dep, hdep, h⟩
      · exact .inl ⟨b', hact', hkey, by rw [← hkey]; exact hb'⟩
      · refine .inr ⟨dep, hdep, h.imp id ?_⟩
        rintro ⟨src, res, hres, hlate⟩
        exact ⟨ls, [.step t], m, src, res, hls.mono fun _ _ _ hok => hok.1,
          .single hl ⟨rfl, hd⟩, hres, hlate⟩
    · exact .inr (h.later hl ⟨rfl, hd⟩)

/-- **No needless recomputation**, where every touch is conclusive.  In a sequential run on the
database an access at revision `R` enters its loop while its cell is ready.  If its compute
function runs, there was a reason: some recorded dependency is not registered, or its touch
failed or reported a change after the cell's `verified_at`.  Otherwise it returns the cached
value, and the cell is verified at `R`. -/
theorem recompute_is_blamed {ls₁ ls₂ : List (Label V)} {q : DynKey}
    (hrun : Trans.Steps (step S) (SequentialIn Label.OnDatabase) init ls₁ c)
    (henter : c.Enters t d q r)
    (haccess : Trans.Steps (step S) (fun m l m' => During t d m l m' ∧ Conclusive S m l) c ls₂ m) :
    ((∃ b, m.act t d = some b ∧ b.pc.computes) → Blamed S c t d r m) ∧
      ∀ a below w res m', (m.tasks t).stack = a :: below → below.length = d →
        stepActivation S m.world (m.tasks t).view t below a = some (w, .ret res) →
        step S m (.step t) = some m' → Blamed S c t d r m ∨
          res = .ok (r.value, r.changedAt) ∧
            m'.world.state 0 q = .ready { r with verifiedAt := c.world.rev 0 } := by
  obtain ⟨hm, hrev, h⟩ := checks_run (oneView_run hrun) henter haccess
  refine ⟨fun ⟨b, hact, hpc⟩ => ?_, fun a below w res m' hst hd hret hs => ?_⟩
  · refine h.resolve_left fun ⟨b', hact', _, hb⟩ => ?_
    rw [hact] at hact'
    cases hact'
    rw [hb.not_computes] at hpc
    cases hpc
  · refine h.symm.imp id fun ⟨b, hact, hkey, hb⟩ => ?_
    obtain rfl : a = b := Option.some.inj ((act_top hst).symm.trans (hd ▸ hact))
    have hact' : ActStep S m.world (m.tasks t).view t below a w (.ret res) := actStep_of_step hret
    have hsame := same_of_ret hst hret hs
    obtain ⟨ops, ⟨hpc, -⟩ | ⟨e, -, hpc⟩⟩ := hact'.ret_pc
    · rw [hpc] at hb
      cases hb with
      | cached hstate =>
        rw [hsame.state, ← hrev]
        exact ⟨rfl, hstate⟩
    · rw [hpc] at hb
      cases hb

end runs

namespace Cutoff

open Cancellation (x y)

/-- `parity` is computed for 1, and again for 3, which comes out the same; then `y` is set, of
which `parity` knows nothing, and a third access to `parity` starts. -/
def cutoff : List (Label Nat) :=
  first ++ [.step 0] ++
    [.mutate 0 x (some 3), .spawn 0 parity true] ++ List.replicate 18 (.step 1) ++
    [.mutate 0 y (some 5), .spawn 0 parity true]

/-- `parity` is computed for 1; then `y` is set, and a second access to `parity` starts. -/
def unrelated : List (Label Nat) :=
  first ++ [.step 0] ++ [.mutate 0 y (some 5), .spawn 0 parity true]

/-- The label is a step of task `t`, which stays in progress. -/
def ongoing (t : TaskId) (c : Config Nat) : Label Nat → Bool
  | .step t' => t' == t && (step schema c (.step t)).any fun c' => !(c'.tasks t).stack.isEmpty
  | _ => false

theorem during_of_ongoing {t : TaskId} {c c' : Config Nat} {l : Label Nat} (h : ongoing t c l)
    (hs : step schema c l = some c') : During t 0 c l c' := by
  unfold ongoing at h
  split at h
  · next t' =>
    obtain ⟨ht, hlong⟩ := Bool.and_eq_true_iff.mp h
    obtain rfl := beq_iff_eq.mp ht
    rw [hs] at hlong
    exact ⟨rfl, List.length_pos_iff.mpr (by simpa using hlong)⟩
  · cases h

/-- No record of a cell that task `t` accesses has been verified after it changed. -/
def settled (t : TaskId) (c : Config Nat) : Bool :=
  (c.tasks t).stack.all fun a =>
    match c.world.state (c.tasks t).view a.key with
    | .ready r => r.changedAt == r.verifiedAt
    | _ => true

theorem conclusive_of_settled {t : TaskId} {c : Config Nat} (h : settled t c) :
    Conclusive schema c (.step t) := by
  intro t d a src dep ch r hl hact _ _ hr
  cases hl
  have hmem : a ∈ (c.tasks t).stack := by
    obtain ⟨above, below, heq, -⟩ := atDepth_eq_some hact
    rw [heq]
    simp
  have hstate := List.all_eq_true.mp h a hmem
  simp only [hr, beq_iff_eq] at hstate
  rw [hstate]
  exact (Nat.lt_or_ge r.verifiedAt ch).symm

/-- The key of the only access of task `t`, if it is about to enter its loop. -/
def entering (c : Config Nat) (t : TaskId) : Option DynKey :=
  match (c.tasks t).stack with
  | [⟨key, _, _, .top⟩] => some key
  | _ => none

theorem enters_of_entering {c : Config Nat} {t : TaskId} {q : DynKey} {r : ReadyRecord Nat}
    (h : entering c t = some q) (hs : c.world.state 0 q = .ready r) : c.Enters t 0 q r := by
  unfold entering at h
  split at h
  · next key rev guard hst =>
    cases h
    exact ⟨⟨_, [], hst, rfl, rfl, rfl⟩, hs⟩
  · cases h

/-- No access changes a slot: an item that has not changed since a record of it alone was verified
is no reason to compute. -/
theorem not_blamed {c m : Config Nat} {t : TaskId} {d : Nat} {r : ReadyRecord Nat}
    (hdeps : r.deps = [Cancellation.x]) (hview : (c.tasks t).view = 0)
    (htouch : (c.world.inputs 0).touch Cancellation.x ≤ r.verifiedAt) :
    ¬ Blamed schema c t d r m := by
  rintro ⟨dep, hdep, hreg | ⟨ls₁, ls₂, m₁, src, res, h₁, -, hres, hlate⟩⟩
  · cases hreg
  · obtain rfl := List.mem_singleton.mp (hdeps ▸ hdep)
    -- the slot is as it was when the access started
    obtain ⟨hinputs, hview₁⟩ := h₁.invariant
      (I := fun m => m.world.inputs 0 = c.world.inputs 0 ∧ (m.tasks t).view = 0) ⟨rfl, hview⟩ <| by
        rintro m l m' ⟨hin, hv⟩ hl ⟨rfl, -⟩
        have hstep := taskStep_of_step hl
        exact ⟨(hstep.fixed.inputs 0).trans hin, hstep.same_access.2.1.trans hv⟩
    cases hres with
    | input _ _ _ _ =>
      have hlt : r.verifiedAt < (m₁.world.inputs (m₁.tasks t).view).touch Cancellation.x :=
        hlate _ rfl
      rw [hview₁, hinputs] at hlt
      exact Nat.not_lt.mpr htouch hlt
    | interned _ _ _ hk _ | missing _ _ _ hk _ | cycle _ _ _ hk _ | derived _ _ _ hk _ => cases hk

end Cutoff

open Cutoff in
/-- `y` is set, and `parity` is not computed again: the access returns what is cached, and the
cell is verified at revision 2. -/
theorem parity_verified_at_two :
    ∃ c m m' r, Trans.run (step schema) init unrelated = some c ∧ c.Enters 1 0 parity r ∧
      Trans.run (step schema) c (List.replicate 6 (.step 1)) = some m ∧
      step schema m (.step 1) = some m' ∧ ¬ Blamed schema c 1 0 r m ∧
      .ok (1, 1) = (.ok (r.value, r.changedAt) : AccessResult Nat) ∧
      m'.world.state 0 parity = .ready { r with verifiedAt := 2 } := by
  have hrun : (Trans.run (fun c l => if l.inSequence c then step schema c l else none) init
      unrelated).any (fun c => entering c 1 = some parity ∧
        c.world.state 0 parity = .ready ⟨1, 1, 1, [Cancellation.x], false⟩ ∧
        (c.world.inputs 0).touch Cancellation.x = 1 ∧ (c.tasks 1).view = 0 ∧ c.world.rev 0 = 2 ∧
        (Trans.run (fun c l => if ongoing 1 c l && settled 1 c then step schema c l else none) c
          (List.replicate 6 (.step 1))).any fun m =>
            m.returning schema 1 = some (parity, 1, 1) ∧ (m.tasks 1).stack.length = 1) := by
    decide +kernel
  obtain ⟨c, hc, hrun⟩ := (Option.any_eq_true ..).mp hrun
  obtain ⟨henter, hs, htouch, hview, hrev, hrun⟩ := of_decide_eq_true hrun
  obtain ⟨m, hm, hret⟩ := (Option.any_eq_true ..).mp hrun
  have henter := enters_of_entering henter hs
  obtain ⟨hsteps, -⟩ := (Trans.Steps.of_checked_run _ hc).strengthen (led_init (V := Nat))
    fun _ _ _ hm hl hok => ⟨led_step hm hl, sequential_of_inSequence hm hok.2⟩
  have haccess : Trans.Steps (step schema) (fun m l m' => During 1 0 m l m' ∧ Conclusive schema m l)
      c (List.replicate 6 (.step 1)) m := by
    refine ((Trans.Steps.of_checked_run _ hm).strengthen (I := fun _ => True) trivial ?_).1
    intro c l c' _ hl hok
    obtain ⟨hon, hset⟩ := Bool.and_eq_true_iff.mp hok.2
    have hduring := during_of_ongoing hon hl
    obtain rfl := hduring.1
    exact ⟨trivial, hduring, conclusive_of_settled hset⟩
  obtain ⟨hret, hlen⟩ := of_decide_eq_true hret
  have hret := returns_of_returning hret
  obtain ⟨m', hs'⟩ := hret.step
  obtain ⟨a, below, w, hst, -, hact⟩ := hret
  have hlen : below.length = 0 := by simpa [hst] using hlen
  have hblame : ∀ d m, ¬ Blamed schema c 1 d ⟨1, 1, 1, [Cancellation.x], false⟩ m :=
    fun d m => not_blamed rfl hview (Nat.le_of_eq htouch)
  obtain ⟨hres, hverified⟩ := ((recompute_is_blamed hsteps henter haccess).2 a below w _ m' hst
    hlen hact hs').resolve_left (hblame 0 m)
  exact ⟨c, m, m', _, hsteps.run, henter, haccess.run, hs', hblame 0 m, hres, hrev ▸ hverified⟩

open Cutoff in
/-- **After a cutoff an unrelated change makes the key compute again.**  `parity` was computed
again at revision 2, because `x` had changed, and came out the same: verified at 2, it has
changed at 1.  At revision 3 `x` still reports 2, which is more than 1. -/
theorem cutoff_computes_again :
    ¬ ∀ (ls₁ ls₂ : List (Label Nat)) (c m : Config Nat) (t : TaskId) (d : Nat) (q : DynKey)
      (r : ReadyRecord Nat),
      Trans.Steps (step schema) (SequentialIn Label.OnDatabase) init ls₁ c → c.Enters t d q r →
        Trans.Steps (step schema) (During t d) c ls₂ m →
          (∃ b, m.act t d = some b ∧ b.pc.computes) → Blamed schema c t d r m := by
  intro h
  have hrun : (Trans.run (fun c l => if l.inSequence c then step schema c l else none) init
      cutoff).any (fun c => entering c 2 = some parity ∧
        c.world.state 0 parity = .ready ⟨1, 2, 1, [Cancellation.x], false⟩ ∧
        (c.world.inputs 0).touch Cancellation.x = 2 ∧ (c.tasks 2).view = 0 ∧
        (Trans.run (fun c l => if ongoing 2 c l then step schema c l else none) c
          (List.replicate 8 (.step 2))).any fun m => (m.act 2 0).any (·.pc.computes)) := by
    decide +kernel
  obtain ⟨c, hc, hrun⟩ := (Option.any_eq_true ..).mp hrun
  obtain ⟨henter, hs, htouch, hview, hrun⟩ := of_decide_eq_true hrun
  obtain ⟨m, hm, hcomp⟩ := (Option.any_eq_true ..).mp hrun
  obtain ⟨hsteps, -⟩ := (Trans.Steps.of_checked_run _ hc).strengthen (led_init (V := Nat))
    fun _ _ _ hm hl hok => ⟨led_step hm hl, sequential_of_inSequence hm hok.2⟩
  obtain ⟨haccess, -⟩ := (Trans.Steps.of_checked_run _ hm).strengthen (I := fun _ => True) trivial
    fun _ _ _ _ hl hok => ⟨trivial, during_of_ongoing hok.2 hl⟩
  exact not_blamed rfl hview (Nat.le_of_eq htouch) (h _ _ c m 2 0 parity _ hsteps
    (enters_of_entering henter hs) haccess ((Option.any_eq_true ..).mp hcomp))

end Picante

/-
# Whole runs

`Consistent` adds to a coherent world what is known of everything that is under way: every
activation on every stack is in order, and waits for the one above it; every `set` or `remove`
that has moved the revision is to store its entry at a revision that is not settled.

* `consistent_step` -- an `Orderly` step keeps it, with a past that remembers what was settled;
* `consistent_run` -- so does a run of such steps;
* `Consistent.returns` -- what a task returns in such a run is right.
-/
import Picante.Coherence.Step
import Picante.Coherence.Mutate

namespace Picante

open ReadProg Stamp Config

variable {V : Type}

/-! ## 1. What is asked of a run -/

namespace Config

/-- No `set` or `remove` has moved the revision and still has to store its entry. -/
def Settled (c : Config V) : Prop := ∀ m ∈ c.mutators, m.pending = false

/-- What is asked of a step of task `t`, with the activation `a` on top.  The database reads its
revision only when it is settled, and a result is stored only at the revision that was read.
Where errors count, every activation of the task has read the revision its view is at, and where
they are answers the database takes none over from a snapshot. -/
structure Prompt (acc : Account) (c : Config V) (t : TaskId) (a : Activation V)
    (below : List (Activation V)) : Prop where
  reads : a.pc = .top → (c.tasks t).view = 0 → c.Settled
  writes : a.pc.writes → a.rev = c.world.rev (c.tasks t).view
  fresh : acc ≠ .values →
    ∀ b ∈ a :: below, b.pc = .top ∨ b.rev = c.world.rev (c.tasks t).view
  leads : acc = .answers → (c.tasks t).view = 0 → ∀ e seen, a.pc = .followRead e seen →
    ∀ err, (c.world.registry.entries e).state = .failed err →
      (c.world.registry.entries e).leader = 0

/-- What is asked of a label: a task takes a `Prompt` step, only the database is changed, and
snapshots are made between changes. -/
def Asked (acc : Account) (c : Config V) : Label V → Prop
  | .step t => ∀ a below, (c.tasks t).stack = a :: below → c.Prompt acc t a below
  | .mutate view _ _ | .begin view _ _ | .bump view => view = 0
  | .snapshot => c.Settled
  | _ => True

end Config

/-- A step that does what is asked of it, in a run whose log the account allows. -/
def Orderly (acc : Account) (c : Config V) (l : Label V) (c' : Config V) : Prop :=
  c.Asked acc l ∧ ∀ e ∈ c'.world.log, Allows acc e

namespace Spec

/-! ## 2. Stacks -/

section stackOf

variable (T : Spec V) (p : Past V) (w : World V) (i : ViewId) (q : DynKey)

/-- The activation `a` works for the one below it, which waits for its result and read its own
revision before; the last one works for the access to `q`. -/
def LinkedTo (a : Activation V) : List (Activation V) → Prop
  | [] => a.key = q
  | b :: _ => b.pc.waitsFor a.key ∧ (a.pc ≠ .top → b.rev ≤ a.rev)

/-- The activations of an access to `q` on view `i`. -/
def StackOk : List (Activation V) → Prop
  | [] => True
  | a :: below => T.LocalOk p w i a ∧ LinkedTo q a below ∧ StackOk below

end stackOf

variable {T : Spec V} {p p' : Past V} {w w' : World V} {i : ViewId} {q : DynKey}
  {a a' : Activation V} {below : List (Activation V)}

theorem waiting_ne_top {k : DynKey} (h : a.pc.waitsFor k) : a.pc ≠ .top := by
  intro htop
  rw [htop] at h
  exact h

/-- Nobody else takes away what the activations rely on. -/
theorem StackOk.later (hl : T.Later p w p' w') (hi : i < w.viewCount)
    {stack : List (Activation V)} (h : T.StackOk p w i q stack) : T.StackOk p' w' i q stack := by
  induction stack with
  | nil => trivial
  | cons a below ih => exact ⟨h.1.later hl hi, h.2.1, ih h.2.2⟩

/-- The activation below has read its revision no later than its view has reached it. -/
theorem LinkedTo.rev_le (h : LinkedTo q a below) (hb : T.StackOk p w i q below) :
    ∀ b ∈ below.head?, b.rev ≤ w.rev i := by
  intro b hmem
  cases below with
  | nil => cases hmem
  | cons c rest =>
    cases hmem
    exact hb.1.rev_le (waiting_ne_top h.1)

/-- An activation that has moved, and has not gone back behind its revision, still works for
the one below it. -/
theorem LinkedTo.moved (h : LinkedTo q a below) (hb : T.StackOk p w i q below)
    (hkey : a'.key = a.key) (hrev : a'.rev = w.rev i ∨ a'.rev = a.rev ∧ a.pc ≠ .top) :
    LinkedTo q a' below := by
  cases below with
  | nil => exact hkey.trans h
  | cons b rest =>
    refine ⟨hkey ▸ h.1, fun _ => ?_⟩
    rcases hrev with hrev | ⟨hrev, hne⟩
    · rw [hrev]
      exact h.rev_le hb b rfl
    · rw [hrev]
      exact h.2 hne

/-! ## 3. A key that is met again -/

/-- An activation that waits for a key calls it, unless it waits on behalf of a foreign
record. -/
theorem LocalOk.calls (hT : T.Fits) (hacc : T.account = .failures) (h : T.LocalOk p w i a)
    (hrev : a.rev = w.rev i) {k : DynKey} (hwait : a.pc.waitsFor k)
    (hown : a.touchesForeign (w.rev i) = false) :
    Calls (T.env w (p.content (w.rev i))) a.key k := by
  have hne : T.account ≠ .answers := by
    rw [hacc]
    decide
  have hpc := h.pc hrev
  rw [hrev] at hpc
  cases hp : a.pc with
  | touching src dep rest =>
    rw [hp] at hpc hwait
    obtain rfl : dep = k := hwait
    have hforeign : src.foreign (w.rev i) = false := by
      simpa only [Activation.touchesForeign, hp] using hown
    obtain ⟨obs, cont, hreads⟩ := hpc.1.reads hT hne hforeign
    exact hreads.calls hne (derived_env.mpr hpc.2)
  | reading prev d cont deps =>
    rw [hp] at hpc hwait
    obtain rfl : d = k := hwait
    obtain ⟨-, -, hd, obs, hobs, -⟩ := hpc
    exact hobs.1.calls hne (derived_env.mpr hd)
  | _ => rw [hp] at hwait; exact hwait.elim

/-- **A key on the stack calls the top one**, along the activations in between. -/
theorem StackOk.chain (hT : T.Fits) (hacc : T.account = .failures)
    (h : T.StackOk p w i q (a :: below))
    (hfresh : ∀ b ∈ a :: below, b.pc = .top ∨ b.rev = w.rev i) {d : DynKey}
    (hd : d ∈ (a :: below).map (·.key))
    (hown : (segment d (a :: below)).any (·.touchesForeign (w.rev i)) = false) :
    d = a.key ∨ Relation.TransGen (Calls (T.env w (p.content (w.rev i)))) d a.key := by
  induction below generalizing a with
  | nil => exact .inl (List.mem_singleton.mp hd)
  | cons b rest ih =>
    by_cases hkey : a.key = d
    · exact .inl hkey.symm
    · have hd' : d ∈ (b :: rest).map (·.key) :=
        (List.mem_cons.mp hd).resolve_left fun heq => hkey heq.symm
      rw [segment, if_neg hkey, List.any_cons, Bool.or_eq_false_iff] at hown
      have hrest := ih h.2.2 (fun c hc => hfresh c (List.mem_cons_of_mem _ hc)) hd' hown.2
      obtain ⟨hwait, -⟩ := h.2.1
      have hrev : b.rev = w.rev i :=
        (hfresh b (by simp)).resolve_left (waiting_ne_top hwait)
      -- the activation below is the first of the rest of the segment
      have hb : b.touchesForeign (w.rev i) = false := by
        have hmem : b ∈ segment d (b :: rest) := by
          unfold segment
          split <;> exact List.mem_cons_self ..
        exact List.any_eq_false.mp hown.2 b hmem |> Bool.eq_false_iff.mpr
      have hcall := h.2.2.1.calls hT hacc hrev hwait hb
      refine .inr ?_
      rcases hrest with rfl | hrest
      · exact .single hcall
      · exact hrest.tail hcall

/-! ## 4. Configurations -/

/-- **Everything is in order.** -/
structure Consistent (T : Spec V) (p : Past V) (c : Config V) : Prop where
  world : T.Coherent p c.world
  views : ∀ t, c.Pending t → (c.tasks t).view < c.world.viewCount
  stacked : ∀ t, T.StackOk p c.world (c.tasks t).view (c.tasks t).key (c.tasks t).stack
  mutators : ∀ m ∈ c.mutators, m.view = 0 ∧
    ∀ r, m.pc = .diverge r ∨ m.pc = .store r → p.settled < r ∧ r ≤ c.world.rev 0

/-- The past is up to date. -/
def UpToDate (p : Past V) (c : Config V) : Prop := c.Settled → p.settled = c.world.rev 0

variable {c c' : Config V} {t : TaskId}

/-- The world moves on, and one task gets another stack. -/
theorem Consistent.withTask (h : T.Consistent p c) (hc : T.Coherent p' w')
    (hl : T.Later p c.world p' w') (hrev : ∀ j, w'.rev j = c.world.rev j)
    (hset : p'.settled = p.settled) {task : Task V} (hview : task.view = (c.tasks t).view)
    (hkey : task.key = (c.tasks t).key) (hlt : (c.tasks t).view < c.world.viewCount)
    (hst : T.StackOk p' w' (c.tasks t).view (c.tasks t).key task.stack) :
    T.Consistent p' ({ c with world := w' }.setTask t task) where
  world := hc
  views t' ht' := by
    by_cases ht : t' = t
    · subst ht
      simp only [Config.setTask, Function.update_self, hview]
      exact Nat.lt_of_lt_of_le hlt hl.viewCount
    · have hp : c.Pending t' := (pending_setTask_ne ht task).mp ht'
      simp only [Config.setTask, Function.update_of_ne ht]
      exact Nat.lt_of_lt_of_le (h.views t' hp) hl.viewCount
  stacked t' := by
    by_cases ht : t' = t
    · subst ht
      simp only [Config.setTask, Function.update_self, hview, hkey]
      exact hst
    · simp only [Config.setTask, Function.update_of_ne ht]
      cases hst' : (c.tasks t').stack with
      | nil => trivial
      | cons b rest =>
        rw [← hst']
        exact (h.stacked t').later hl (h.views t' (pending_of_stack hst'))
  mutators m hm := by
    rw [hset]
    obtain ⟨hv, hr⟩ := h.mutators m hm
    refine ⟨hv, fun r hpc => ?_⟩
    show p.settled < r ∧ r ≤ w'.rev 0
    rw [hrev]
    exact hr r hpc

/-- The world moves on, and no task does. -/
theorem Consistent.withWorld (h : T.Consistent p c) (hc : T.Coherent p' w')
    (hl : T.Later p c.world p' w') {ms : List (Mutator V)}
    (hms : ∀ m ∈ ms, m.view = 0 ∧
      ∀ r, m.pc = .diverge r ∨ m.pc = .store r → p'.settled < r ∧ r ≤ w'.rev 0) :
    T.Consistent p' { c with world := w', mutators := ms } where
  world := hc
  views t ht := Nat.lt_of_lt_of_le (h.views t ht) hl.viewCount
  stacked t := by
    show T.StackOk p' w' (c.tasks t).view (c.tasks t).key (c.tasks t).stack
    cases hst : (c.tasks t).stack with
    | nil => trivial
    | cons b rest =>
      rw [← hst]
      exact (h.stacked t).later hl (h.views t (pending_of_stack hst))
  mutators := hms

/-- **The past is brought up to date.** -/
theorem Consistent.settle (h : T.Consistent p c) :
    ∃ p', T.Later p c.world p' c.world ∧ T.Consistent p' c ∧ UpToDate p' c := by
  by_cases hs : c.Settled
  · obtain ⟨hc, hl⟩ := h.world.settle
    refine ⟨p.settle c.world, hl, h.withWorld hc hl fun m hm => ?_, fun _ => rfl⟩
    refine ⟨(h.mutators m hm).1, fun r hpc => ?_⟩
    have hno := hs m hm
    rcases hpc with hpc | hpc <;> simp [Mutator.pending, hpc] at hno
  · exact ⟨p, (h.world.quiet (quiet_refl c.world)).later, h, fun hs' => absurd hs' hs⟩

/-- **A new database is consistent.** -/
theorem consistent_init (T : Spec V) : T.Consistent .init .init where
  world := coherent_init T
  views _ ht := absurd rfl ht
  stacked _ := trivial
  mutators _ hm := absurd hm List.not_mem_nil

theorem upToDate_init : UpToDate (Past.init : Past V) .init := fun _ => rfl

/-! ## 5. A step of a task -/

/-- The guards of a task that is dropped are dropped. -/
theorem Coherent.cancelGuards (hc : T.Coherent p w) (stack : List (Activation V)) :
    T.Kept p w p (Config.cancelGuards w stack) := by
  induction stack generalizing w with
  | nil => exact hc.quiet (quiet_refl w)
  | cons a stack ih =>
    unfold Config.cancelGuards
    cases a.guard with
    | none => exact ih hc
    | some g =>
      have hk := hc.cancel g
      exact hk.trans hc (ih hk.coherent)

/-- The top activation has returned, and the one below it is in order for the result. -/
theorem StackOk.popped {b : Activation V} (h : T.StackOk p w i q (a :: b :: below))
    {r : AccessResult V} (hne : a.pc ≠ .top)
    (hr : a.rev = w.rev i → T.ResultOk p w a.rev a.key r ∧ T.Answered p i a.rev a.key r)
    (hb : b.rev = w.rev i) :
    T.ResultOk p w b.rev a.key r ∧ T.Answered p i b.rev a.key r := by
  obtain ⟨ha, ⟨-, hle⟩, -⟩ := h
  have hrev : a.rev = w.rev i := by
    refine Nat.le_antisymm (ha.rev_le hne) ?_
    rw [← hb]
    exact hle hne
  rw [hb, ← hrev]
  exact hr hrev

variable [DecidableEq V]

/-- **A step of a task keeps everything in order.** -/
theorem Consistent.taskStep_later (hT : T.Fits) (h : T.Consistent p c) (hup : UpToDate p c)
    (hask : c.Asked T.account (.step t)) (hstep : TaskStep T.schema c t c')
    (hlog : ∀ e ∈ c'.world.log, Allows T.account e) :
    ∃ p', T.Later p c.world p' c'.world ∧ T.Consistent p' c' := by
  have hstack := h.stacked t
  cases hstep with
  | @goto a a' below w hst ha =>
    rw [hst] at hstack
    obtain ⟨hlocal, hlink, hbelow⟩ := hstack
    have hi := h.views t (pending_of_stack hst)
    have hp := hask a below hst
    have htimely : Timely p c.world (c.tasks t).view a := by
      refine ⟨fun htop => ?_, hp.writes⟩
      by_cases h0 : (c.tasks t).view = 0
      · exact Nat.le_of_eq (by rw [h0, hup (hp.reads htop h0)])
      · exact h.world.snapshot_le _ h0
    -- a key that is called by the top one, and calls it, calls itself
    have hloop : T.account = .failures → ∀ d, d ∈ (a :: below).map (·.key) →
        (segment d (a :: below)).any (·.touchesForeign (c.world.rev (c.tasks t).view)) = false →
        a.rev = c.world.rev (c.tasks t).view →
        Calls (T.env c.world (p.content (c.world.rev (c.tasks t).view))) a.key d →
        Relation.TransGen
          (Calls (T.env c.world (p.content (c.world.rev (c.tasks t).view)))) d d := by
      intro hacc d hd hown _ hcall
      have hfresh := hp.fresh (by rw [hacc]; decide)
      have hst' : T.StackOk p c.world (c.tasks t).view (c.tasks t).key (a :: below) :=
        ⟨hlocal, hlink, hbelow⟩
      rcases hst'.chain hT hacc hfresh hd hown with rfl | hchain
      · exact .single hcall
      · exact hchain.tail hcall
    obtain ⟨p', hs⟩ := Spec.ActStep.coherent hT h.world hi hlocal htimely hloop
      (fun hacc h0 => hp.leads hacc h0) ha hlog
    refine ⟨p', hs.kept.later, h.withTask hs.kept.coherent hs.kept.later hs.kept.rev
      hs.kept.settled rfl rfl hi ⟨hs.ok, hlink.moved hbelow hs.key hs.rev, ?_⟩⟩
    exact hbelow.later hs.kept.later hi
  | @call a a' below w child hst ha =>
    rw [hst] at hstack
    obtain ⟨hlocal, hlink, hbelow⟩ := hstack
    have hi := h.views t (pending_of_stack hst)
    obtain ⟨rfl, hlocal', hkey, hrev, hne, hwait, hd⟩ := Spec.ActStep.called hlocal ha
    have hk := h.world.quiet (quiet_refl c.world)
    refine ⟨p, hk.later, h.withTask h.world hk.later (fun _ => rfl) rfl rfl rfl hi ?_⟩
    refine ⟨⟨hd, fun hne => absurd rfl hne, fun hne => absurd rfl hne, fun _ => trivial⟩,
      ⟨hwait, fun hne => absurd rfl hne⟩, hlocal', ?_, hbelow⟩
    exact hlink.moved hbelow hkey (.inr ⟨hrev, hne⟩)
  | @ret a w r hst ha =>
    rw [hst] at hstack
    have hi := h.views t (pending_of_stack hst)
    obtain ⟨rfl, -⟩ := Spec.ActStep.returned hstack.1 ha
    have hk := h.world.quiet (quiet_refl c.world)
    exact ⟨p, hk.later, h.withTask h.world hk.later (fun _ => rfl) rfl rfl rfl hi trivial⟩
  | @resume a b b' below w w' r hst ha hb =>
    rw [hst] at hstack
    have hi := h.views t (pending_of_stack hst)
    obtain ⟨rfl, hne, -, hr⟩ := Spec.ActStep.returned hstack.1 ha
    obtain ⟨hlocal, ⟨hwait, -⟩, hlocal', hlink', hbelow⟩ := id hstack
    have hs := Spec.Resumed.coherent hT h.world hi hlocal' hwait hlocal.derived
      (fun hrev => hstack.popped hne hr hrev) hb hlog
    refine ⟨p, hs.kept.later, h.withTask hs.kept.coherent hs.kept.later hs.kept.rev
      hs.kept.settled rfl rfl hi ⟨hs.ok, hlink'.moved hbelow hs.key hs.rev, ?_⟩⟩
    exact hbelow.later hs.kept.later hi

/-- A step of a task keeps everything in order, and the past that was settled. -/
theorem Consistent.taskStep (hT : T.Fits) (h : T.Consistent p c) (hup : UpToDate p c)
    (hask : c.Asked T.account (.step t)) (hstep : TaskStep T.schema c t c')
    (hlog : ∀ e ∈ c'.world.log, Allows T.account e) :
    ∃ p', p.Extends p' ∧ T.Consistent p' c' := by
  obtain ⟨p', hl, h'⟩ := h.taskStep_later hT hup hask hstep hlog
  exact ⟨p', hl.past, h'⟩

/-! ## 6. A step of a call of `set` or `remove` -/

/-- **A step of a mutation keeps everything in order.** -/
theorem Consistent.advance (h : T.Consistent p c) {n : Nat} {m m' : Mutator V}
    (hm : c.mutators[n]? = some m) (hstep : stepMutator c.world m = some (w', m')) :
    T.Later p c.world p w' ∧
      T.Consistent p { c with world := w', mutators := c.mutators.set n m' } := by
  have hmem : m ∈ c.mutators := List.mem_of_getElem? hm
  obtain ⟨hview, hpend⟩ := h.mutators m hmem
  have hquiet := (h.world.quiet (quiet_refl c.world)).later
  -- the other calls: their revisions stay behind that of the database
  have hothers : ∀ {w : World V}, c.world.rev 0 ≤ w.rev 0 →
      (m'.view = 0 ∧ ∀ r, m'.pc = .diverge r ∨ m'.pc = .store r →
        p.settled < r ∧ r ≤ w.rev 0) →
      ∀ m₁ ∈ c.mutators.set n m', m₁.view = 0 ∧
        ∀ r, m₁.pc = .diverge r ∨ m₁.pc = .store r → p.settled < r ∧ r ≤ w.rev 0 := by
    intro w hle hnew m₁ hm₁
    rcases List.mem_or_eq_of_mem_set hm₁ with hold | rfl
    · obtain ⟨hv, hr⟩ := h.mutators m₁ hold
      exact ⟨hv, fun r hpc => ⟨(hr r hpc).1, Nat.le_trans (hr r hpc).2 hle⟩⟩
    · exact hnew
  unfold stepMutator at hstep
  cases hpc : m.pc with
  | check =>
    simp only [hpc] at hstep
    split at hstep
    · cases hstep
      exact ⟨hquiet, h.withWorld h.world hquiet (hothers (Nat.le_refl _)
        ⟨hview, fun r hr => by rcases hr with hr | hr <;> cases hr⟩)⟩
    · cases hstep
      exact ⟨hquiet, h.withWorld h.world hquiet (hothers (Nat.le_refl _)
        ⟨hview, fun r hr => by rcases hr with hr | hr <;> cases hr⟩)⟩
  | bump =>
    simp only [hpc, hview] at hstep
    cases hstep
    obtain ⟨hc, hl⟩ := h.world.bump
    refine ⟨hl, h.withWorld hc hl (hothers (hl.rev_le 0 h.world.nonempty) ⟨rfl, fun r hr => ?_⟩)⟩
    rcases hr with hr | hr
    · cases hr
      refine ⟨?_, Nat.le_refl _⟩
      rw [World.rev_modifyRuntime, if_pos rfl]
      exact Nat.lt_succ_of_le h.world.settled_le
    · cases hr
  | diverge r₀ =>
    simp only [hpc, hview] at hstep
    cases hstep
    have hk := h.world.markDivergent
    refine ⟨hk.later, h.withWorld hk.coherent hk.later (hothers (Nat.le_of_eq (hk.rev 0).symm)
      ⟨rfl, fun r hr => ?_⟩)⟩
    rcases hr with hr | hr
    · cases hr
    · cases hr
      obtain ⟨hlt, hle⟩ := hpend r₀ (.inl hpc)
      exact ⟨hlt, Nat.le_trans hle (Nat.le_of_eq (hk.rev 0).symm)⟩
  | store r₀ =>
    simp only [hpc, hview] at hstep
    cases hstep
    obtain ⟨hlt, hle⟩ := hpend r₀ (.inr hpc)
    obtain ⟨hc, hl⟩ := h.world.storeInput m.key m.value hlt hle
    refine ⟨hl, h.withWorld hc hl (hothers (hl.rev_le 0 h.world.nonempty) ⟨rfl, fun r hr => ?_⟩)⟩
    rcases hr with hr | hr <;> cases hr
  | done r₀ => simp [hpc] at hstep

/-! ## 7. Runs -/

/-- **An orderly step keeps everything in order**, and what accesses rely on. -/
theorem later_step {l : Label V} (hT : T.Fits) (h : T.Consistent p c) (hup : UpToDate p c)
    (hstep : step T.schema c l = some c') (ho : Orderly T.account c l c') :
    ∃ p', T.Later p c.world p' c'.world ∧ T.Consistent p' c' ∧ UpToDate p' c' := by
  obtain ⟨hask, hlog⟩ := ho
  suffices hnext : ∃ p', T.Later p c.world p' c'.world ∧ T.Consistent p' c' by
    obtain ⟨p', hl, h'⟩ := hnext
    obtain ⟨p'', hl', h'', hup''⟩ := h'.settle
    exact ⟨p'', hl.trans hl' h.world.nonempty, h'', hup''⟩
  have hquiet := (h.world.quiet (quiet_refl c.world)).later
  cases l with
  | spawn view key want =>
    simp only [step] at hstep
    split at hstep
    · next hv =>
      cases hstep
      refine ⟨p, hquiet, h.world, fun t ht => ?_, fun t => ?_, h.mutators⟩
      · by_cases heq : t = c.taskCount
        · subst heq
          simp only [Function.update_self]
          exact hv.1
        · unfold Pending at ht
          simp only [Function.update_of_ne heq] at ht ⊢
          exact h.views t ht
      · by_cases heq : t = c.taskCount
        · subst heq
          simp only [Function.update_self]
          exact ⟨⟨hv.2, fun hne => absurd rfl hne, fun hne => absurd rfl hne, fun _ => trivial⟩,
            rfl, trivial⟩
        · simp only [Function.update_of_ne heq]
          exact h.stacked t
    · cases hstep
  | step t => exact h.taskStep_later hT hup hask (taskStep_of_step hstep) hlog
  | drop t =>
    simp only [step, dropTask] at hstep
    split at hstep
    · cases hstep
    · next a below hst =>
      split at hstep
      · cases hstep
        have hk := h.world.cancelGuards (a :: below)
        exact ⟨p, hk.later, h.withTask hk.coherent hk.later hk.rev hk.settled rfl rfl
          (h.views t (pending_of_stack hst)) trivial⟩
      · cases hstep
  | mutate view key value =>
    obtain rfl : view = 0 := hask
    simp only [step] at hstep
    split at hstep
    · cases hstep
      obtain ⟨hc, hl⟩ := h.world.mutate key value
      refine ⟨p, hl, h.withWorld hc hl fun m hm => ?_⟩
      obtain ⟨hv, hr⟩ := h.mutators m hm
      exact ⟨hv, fun r hpc => ⟨(hr r hpc).1,
        Nat.le_trans (hr r hpc).2 (hl.rev_le 0 h.world.nonempty)⟩⟩
    · cases hstep
  | «begin» view key value =>
    obtain rfl : view = 0 := hask
    simp only [step] at hstep
    split at hstep
    · cases hstep
      refine ⟨p, hquiet, h.withWorld h.world hquiet fun m hm => ?_⟩
      rcases List.mem_append.mp hm with hm | hm
      · exact h.mutators m hm
      · obtain rfl := List.mem_singleton.mp hm
        exact ⟨rfl, fun r hr => by rcases hr with hr | hr <;> cases hr⟩
    · cases hstep
  | advance n =>
    simp only [step] at hstep
    split at hstep
    · cases hstep
    · next m hm =>
      split at hstep
      · cases hstep
      · next w m' hw =>
        cases hstep
        exact ⟨p, h.advance hm hw⟩
  | intern kind value =>
    cases hstep
    obtain ⟨hc, hl⟩ := h.world.intern kind value
    exact ⟨p, hl, h.withWorld hc hl h.mutators⟩
  | bump view =>
    obtain rfl : view = 0 := hask
    simp only [step] at hstep
    split at hstep
    · cases hstep
      obtain ⟨hc, hl⟩ := h.world.bump
      refine ⟨p, hl, h.withWorld hc hl fun m hm => ?_⟩
      obtain ⟨hv, hr⟩ := h.mutators m hm
      exact ⟨hv, fun r hpc => ⟨(hr r hpc).1,
        Nat.le_trans (hr r hpc).2 (hl.rev_le 0 h.world.nonempty)⟩⟩
    · cases hstep
  | snapshot =>
    cases hstep
    obtain ⟨hc, hl⟩ := h.world.snapshot (hup hask)
    refine ⟨p, hl, h.withWorld hc hl fun m hm => ?_⟩
    obtain ⟨hv, hr⟩ := h.mutators m hm
    exact ⟨hv, fun r hpc => ⟨(hr r hpc).1,
      Nat.le_trans (hr r hpc).2 (hl.rev_le 0 h.world.nonempty)⟩⟩

/-- **An orderly step keeps everything in order**, and the past that was settled. -/
theorem consistent_step {l : Label V} (hT : T.Fits) (h : T.Consistent p c) (hup : UpToDate p c)
    (hstep : step T.schema c l = some c') (ho : Orderly T.account c l c') :
    ∃ p', p.Extends p' ∧ T.Consistent p' c' ∧ UpToDate p' c' := by
  obtain ⟨p', hl, h'⟩ := later_step hT h hup hstep ho
  exact ⟨p', hl.past, h'⟩

/-- **An orderly run keeps everything in order**, and what accesses rely on. -/
theorem later_run {ls : List (Label V)} (hT : T.Fits) (h : T.Consistent p c)
    (hup : UpToDate p c) (hrun : Trans.Steps (step T.schema) (Orderly T.account) c ls c') :
    ∃ p', T.Later p c.world p' c'.world ∧ T.Consistent p' c' ∧ UpToDate p' c' := by
  induction hrun with
  | nil => exact ⟨p, (h.world.quiet (quiet_refl c.world)).later, h, hup⟩
  | snoc _ hl ho ih =>
    obtain ⟨p', hlater, h', hup'⟩ := ih
    obtain ⟨p'', hlater', h''⟩ := later_step hT h' hup' hl ho
    exact ⟨p'', hlater.trans hlater' h.world.nonempty, h''⟩

/-- **An orderly run keeps everything in order.** -/
theorem consistent_run {ls : List (Label V)} (hT : T.Fits) (h : T.Consistent p c)
    (hup : UpToDate p c) (hrun : Trans.Steps (step T.schema) (Orderly T.account) c ls c') :
    ∃ p', p.Extends p' ∧ T.Consistent p' c' ∧ UpToDate p' c' := by
  obtain ⟨p', hl, h'⟩ := later_run hT h hup hrun
  exact ⟨p', hl.past, h'⟩

/-! ## 8. What a task returns -/

omit [DecidableEq V] in
/-- What a derived key holds over the slots of a view, at a settled revision. -/
theorem Coherent.right_inputs (hc : T.Coherent p w) (hr : w.rev i ≤ p.settled) {d : DynKey}
    {a : PicanteResult (Option V)} (h : T.Right p w (w.rev i) d a) :
    Yields (T.env w ((w.inputs i).get)) d a := by
  have hcontent : p.content (w.rev i) = (w.inputs i).get := funext (hc.content hr)
  rw [← hcontent]
  exact h

omit [DecidableEq V] in
theorem Coherent.fails_inputs (hc : T.Coherent p w) (hr : w.rev i ≤ p.settled) {d : DynKey}
    {e : PicanteError} (h : T.Fails p w (w.rev i) d e) :
    T.account.Fails (T.env w ((w.inputs i).get)) d e := by
  have hcontent : p.content (w.rev i) = (w.inputs i).get := funext (hc.content hr)
  rw [← hcontent]
  exact h

/-- The result `r` of an access to `q` on view `i` is right over the slots of the view: a value
is what the query evaluates to, and an error is accounted for. -/
def Returned (T : Spec V) (w : World V) (i : ViewId) (q : DynKey) : AccessResult V → Prop
  | .ok (v, _) => Yields (T.env w ((w.inputs i).get)) q (.ok (some v))
  | .error e => T.account.Fails (T.env w ((w.inputs i).get)) q e

/-- **What a task returns is right** over the slots of its view. -/
theorem Consistent.returned (h : T.Consistent p c) (hask : c.Asked T.account (.step t))
    (hstep : TaskStep T.schema c t c') (hdone : ¬ c'.Pending t) :
    c'.world = c.world ∧ T.Derived (c.tasks t).key ∧ ∃ r, (c'.tasks t).result = some r ∧
      T.Returned c.world (c.tasks t).view (c.tasks t).key r := by
  have hstack := h.stacked t
  cases hstep with
  | goto hst ha => exact absurd (by simp [Pending, Config.setTask]) hdone
  | call hst ha => exact absurd (by simp [Pending, Config.setTask]) hdone
  | resume hst ha hb => exact absurd (by simp [Pending, Config.setTask]) hdone
  | @ret a w r hst ha =>
    rw [hst] at hstack
    obtain ⟨rfl, hne, hok, hr⟩ := Spec.ActStep.returned hstack.1 ha
    have hkey : a.key = (c.tasks t).key := hstack.2.1
    refine ⟨rfl, hkey ▸ hstack.1.derived, r, by simp [Config.setTask], ?_⟩
    have hset := hstack.1.settled hne
    have right : a.rev = c.world.rev (c.tasks t).view →
        T.Returned c.world (c.tasks t).view (c.tasks t).key r := by
      intro hrev
      have hres := (hr hrev).1
      rw [hrev, hkey] at hres
      rw [hrev] at hset
      cases r with
      | ok vc => exact h.world.right_inputs hset (Sound.right hres)
      | error e => exact h.world.fails_inputs hset hres
    cases r with
    | ok vc => exact right (hok vc rfl)
    | error e =>
      cases hacc : T.account with
      | values => simp only [Returned, hacc]; trivial
      | failures | answers =>
        have hfresh := (hask a [] hst).fresh (by rw [hacc]; decide) a (List.mem_cons_self ..)
        exact right (hfresh.resolve_left hne)

theorem Consistent.returns (h : T.Consistent p c) (hask : c.Asked T.account (.step t))
    (hstep : step T.schema c (.step t) = some c') (hdone : ¬ c'.Pending t) :
    c'.world = c.world ∧ T.Derived (c.tasks t).key ∧ ∃ r, (c'.tasks t).result = some r ∧
      T.Returned c.world (c.tasks t).view (c.tasks t).key r :=
  h.returned hask (taskStep_of_step hstep) hdone

end Spec

end Picante

/-
# Single flight

While the revision of a view stays what it is, any number of tasks may access the view at once:
the compute function of a query is called once at most, whether it returns a value, fails or
panics, and all accesses to the query that return give the same result
(`single_flight`).

The period may begin in any state that can be reached.  Accesses that are under way there, on this
view or on another one, take no step in it.

* `Config.started`, `Config.answered` -- what a step shows: the compute function that is called,
  and the result that an access returns.
* `Period.At` -- every key is at its stage, and every access of the period knows it.
-/
import Picante.SingleFlight.Step

namespace Picante

open Config Relation

variable {V : Type}

/-! ## 1. What a run shows -/

/-- A step of an access to the view that was started no earlier than task `first`. -/
def Label.accesses (view : ViewId) (first : TaskId) : Label V → Bool
  | .spawn v _ _ => v == view
  | .step t => first ≤ t
  | _ => false

/-- The compute functions that the step calls. -/
def Config.started (c : Config V) : Label V → List DynKey
  | .step t =>
    match (c.tasks t).stack with
    | [] => []
    | a :: _ => a.started c.world (c.tasks t).view
  | _ => []

/-- The results that accesses return in the step: that of the access which takes it, or the cycle
error of the one it asks for. -/
def Config.answered [DecidableEq V] (S : Schema V) (c : Config V) : Label V → Seen V
  | .step t =>
    match (c.tasks t).stack with
    | [] => []
    | a :: below =>
      match a.asks S with
      | some k =>
        match findCycle k (a :: below) with
        | some e => [(k, .error e)]
        | none => []
      | none =>
        match stepActivation S c.world (c.tasks t).view t below a with
        | some (_, .ret r) => [(a.key, r)]
        | _ => []
  | _ => []

/-! ## 2. The invariant -/

variable {S : Schema V} {P : Period V} {starts starts' : List DynKey} {seen : Seen V}
  {stage : DynKey → Stage V} {c c' : Config V} {t : TaskId} {a a' : Activation V}
  {below : List (Activation V)} {w' : World V}

/-- The state `c` in the period: what its keys and its accesses are like. -/
structure Period.At (S : Schema V) (P : Period V) (starts : List DynKey) (seen : Seen V)
    (stage : DynKey → Stage V) (c : Config V) : Prop where
  keeps : P.Keeps c.world
  tasks : P.firstTask ≤ c.taskCount
  views : ∀ t, P.firstTask ≤ t → c.Pending t → (c.tasks t).view = P.view
  keys : ∀ q, (stage q).Holds S P starts seen c.world q
  acts : ∀ t d a, P.firstTask ≤ t → c.act t d = some a → a.Ok S P seen (stage a.key) t d starts
  nodup : starts.Nodup
  agree : seen.Agree
  fates : ∀ q r, (q, r) ∈ seen → (stage q).Fate S P seen q r

/-- A period begins. -/
theorem Period.at_start (hled : Led P.start) : P.At S [] [] (fun _ => .kept) P.start where
  keeps := ⟨.refl _, fun _ _ => rfl, Nat.le_refl _⟩
  tasks := Nat.le_refl _
  views t ht hpend := absurd (hled.unused t ht) hpend
  keys _ := ⟨⟨List.not_mem_nil, rfl⟩, .inl rfl⟩
  acts t d a ht ha := by
    rw [act_none_of_stack (hled.unused t ht)] at ha
    cases ha
  nodup := .nil
  agree _ _ _ h := absurd h List.not_mem_nil
  fates _ _ h := absurd h List.not_mem_nil

/-- More calls, for one key. -/
theorem Activation.Ok.more {s : Stage V} {d : Nat} (h : a.Ok S P seen s t d starts)
    (hstarts : starts ⊆ starts') : a.Ok S P seen s t d starts' :=
  ⟨h.rev, fun g hg => ⟨(h.guard g hg).1, (h.guard g hg).2.1, hstarts (h.guard g hg).2.2⟩, h.pc⟩

/-- **The top access of a task goes on.** -/
theorem Period.At.advance (h : P.At S starts seen stage c) (ht : P.firstTask ≤ t)
    (hst : (c.tasks t).stack = a :: below) (hkey : a'.key = a.key) (hkeeps : P.Keeps w')
    (hframe : P.Frame a.key c.world w')
    (hadv : Advances S P starts' seen t below.length (stage a.key) w' a')
    (hsub : starts ⊆ starts') (hother : ∀ q, q ≠ a.key → q ∈ starts' → q ∈ starts)
    (hnodup : starts'.Nodup) :
    ∃ stage', P.At S starts' seen stage'
      ({ c with world := w' }.setTask t { c.tasks t with stack := a' :: below }) := by
  obtain ⟨s', hs', hholds, ha'⟩ := hadv
  rw [hkey] at hs' hholds
  refine ⟨Function.update stage a.key s', hkeeps, h.tasks, fun t' ht' hpend => ?_, fun q => ?_,
    fun t' d b ht' hb => ?_, hnodup, h.agree, fun q r hr => ?_⟩
  · by_cases heq : t' = t
    · subst heq
      simpa [setTask] using h.views t' ht (pending_of_stack hst)
    · simpa [setTask, Function.update_of_ne heq] using
        h.views t' ht' ((pending_setTask_ne heq _).mp hpend)
  · by_cases hq : q = a.key
    · subst hq
      rw [Function.update_self]
      exact hholds
    · rw [Function.update_of_ne hq]
      exact (h.keys q).congr (hframe.state q hq) (hframe.shared q hq) (hframe.filed q hq)
        ⟨hother q hq, fun hmem => hsub hmem⟩
  · rw [act_goto hst] at hb
    split at hb
    · next heq =>
      obtain ⟨rfl, rfl⟩ := heq
      cases hb
      rw [hkey, Function.update_self]
      exact ha'
    · next hne =>
      have hold := (h.acts t' d b ht' hb).more hsub
      by_cases hq : b.key = a.key
      · rw [hq] at hold ⊢
        rw [Function.update_self]
        refine ⟨hold.rev, hold.guard, ?_⟩
        have hpc := hold.pc
        rw [hq] at hpc ⊢
        exact hs'.other h.agree hne hpc
      · rwa [Function.update_of_ne hq]
  · have hold := h.fates q r hr
    by_cases hq : q = a.key
    · subst hq
      rw [Function.update_self]
      exact hs'.fate h.agree hold
    · rwa [Function.update_of_ne hq]

/-- Nothing is known of an access that starts. -/
theorem Activation.Ok.enter {s : Stage V} {d : Nat} (key : DynKey) :
    (Activation.enter key).Ok S P seen s t d starts :=
  ⟨fun hne => absurd rfl hne, by simp [Activation.enter], trivial⟩

/-- The access on top of the stack of a task starts another one. -/
theorem Period.At.push (h : P.At S starts seen stage c) (ht : P.firstTask ≤ t)
    (hview : (c.tasks t).view = P.view) (child : DynKey) :
    P.At S starts seen stage
      (c.setTask t { c.tasks t with stack := .enter child :: (c.tasks t).stack }) where
  keeps := h.keeps
  tasks := h.tasks
  views t' ht' hpend := by
    by_cases heq : t' = t
    · subst heq
      simpa [setTask] using hview
    · simpa [setTask, Function.update_of_ne heq] using
        h.views t' ht' ((pending_setTask_ne heq _).mp hpend)
  keys := h.keys
  acts t' d b ht' hb := by
    rw [act_setTask] at hb
    split at hb
    · next heq =>
      subst heq
      rw [atDepth_cons] at hb
      split at hb
      · cases hb
        exact .enter child
      · exact h.acts t' d b ht' hb
    · exact h.acts t' d b ht' hb
  nodup := h.nodup
  agree := h.agree
  fates := h.fates

/-- The top access of a task has returned. -/
theorem Period.At.pop (h : P.At S starts seen stage c) (ht : P.firstTask ≤ t)
    (hst : (c.tasks t).stack = a :: below) (result : Option (AccessResult V)) :
    P.At S starts seen stage
      (c.setTask t { c.tasks t with stack := below, result := result }) where
  keeps := h.keeps
  tasks := h.tasks
  views t' ht' hpend := by
    by_cases heq : t' = t
    · subst heq
      simpa [setTask] using h.views t' ht (pending_of_stack hst)
    · simpa [setTask, Function.update_of_ne heq] using
        h.views t' ht' ((pending_setTask_ne heq _).mp hpend)
  keys := h.keys
  acts t' d b ht' hb := by
    rw [act_setTask] at hb
    split at hb
    · next heq =>
      subst heq
      have hd : d ≠ below.length := by
        rintro rfl
        obtain ⟨above, below', heq, hlen⟩ := atDepth_eq_some hb
        have hlength : below.length = above.length + (below'.length + 1) := by
          simpa using congrArg List.length heq
        omega
      exact h.acts t' d b ht' ((act_eq_below hst hd).trans hb)
    · exact h.acts t' d b ht' hb
  nodup := h.nodup
  agree := h.agree
  fates := h.fates

/-- A result is returned. -/
theorem Period.At.see (h : P.At S starts seen stage c) {q : DynKey} {r : AccessResult V}
    (hr : (stage q).Fate S P seen q r) : P.At S starts (seen ++ [(q, r)]) stage c := by
  have hsub : seen ⊆ seen ++ [(q, r)] := fun _ hx => List.mem_append_left _ hx
  have hfates : ∀ q' r', (q', r') ∈ seen ++ [(q, r)] → (stage q').Fate S P seen q' r' := by
    intro q' r' hmem
    rcases List.mem_append.mp hmem with hmem | hmem
    · exact h.fates q' r' hmem
    · cases List.mem_singleton.mp hmem
      exact hr
  exact ⟨h.keeps, h.tasks, h.views, fun q' => (h.keys q').mono hsub,
    fun t d a ht ha => ⟨(h.acts t d a ht ha).rev, (h.acts t d a ht ha).guard,
      (h.acts t d a ht ha).pc.mono hsub⟩, h.nodup,
    fun q' r₁ r₂ h₁ h₂ => (hfates q' r₁ h₁).functional h.agree (hfates q' r₂ h₂),
    fun q' r' hmem => (hfates q' r' hmem).mono hsub⟩

/-! ## 3. One step -/

section step

variable [DecidableEq V] {E : DynKey → DynKey → Prop} {w : World V} {s : Stage V} {d : Nat}

omit [DecidableEq V] in
/-- What the top access asks for is called further up the stack by nobody. -/
theorem Config.Traced.asks_new (h : c.Traced S E) (hE : ∀ k, ¬ TransGen E k k)
    (hcalls : ∀ q k, c.Calls S (.step t) q k → E q k) (hst : (c.tasks t).stack = a :: below)
    {k : DynKey} (hk : a.asks S = some k) : k ∉ (a :: below).map (·.key) := by
  have hcall : E a.key k := by
    have htraced := (h.acts t a (by rw [hst]; exact List.mem_cons_self ..)).pc
    unfold Activation.asks at hk
    split at hk
    · next hpc =>
      split at hk
      · next hd =>
        cases hk
        rw [hpc] at htraced
        exact htraced.2 _ (List.mem_cons_self ..) hd.2
      · cases hk
    · next hpc =>
      split at hk
      · next hd =>
        cases hk
        exact hcalls _ _ ⟨t, a, below, _, _, _, rfl, hst, rfl, hpc, hd⟩
      · cases hk
    · cases hk
  intro hmem
  obtain ⟨b, hb, rfl⟩ := List.mem_map.mp hmem
  rcases h.down hst (hst ▸ hb) with rfl | hdown
  · exact hE _ (.single hcall)
  · exact hE _ (hdown.tail hcall)

omit [DecidableEq V] in
/-- A compute function is called for a key for which none was called. -/
theorem Activation.Ok.started_nodup (hP : P.Keeps w) (h : s.Holds S P starts seen w a.key)
    (ha : a.Ok S P seen s t d starts) (hnodup : starts.Nodup) :
    (starts ++ a.started w P.view).Nodup := by
  have hnil : (starts ++ []).Nodup := by rwa [List.append_nil]
  unfold Activation.started
  split
  · next prev hpc =>
    split
    · next hf =>
      have hrev : a.rev = P.rev := ha.rev (by simp [hpc])
      have hfiled : w.registry.filed (P.inFlight a.key) = none := by
        rw [hrev, hP.fixed.scope] at hf
        exact hf
      have hok := ha.pc
      rw [hpc] at hok
      rcases hok with rfl | ⟨e, rfl⟩
      · refine List.nodup_append.mpr ⟨hnodup, List.nodup_singleton _, fun x hx y hy => ?_⟩
        rintro rfl
        rw [List.mem_singleton.mp hy] at hx
        exact h.2.2.1.1 hx
      · cases h.2.1.2.symm.trans hfiled
    · exact hnil
  · exact hnil

omit [DecidableEq V] in
theorem Activation.started_mem {view : ViewId} {q : DynKey} (h : q ∈ a.started w view) :
    q = a.key := by
  unfold started at h
  split at h
  · split at h
    · exact List.mem_singleton.mp h
    · exact absurd h List.not_mem_nil
  · exact absurd h List.not_mem_nil

/-- **A step of an access**, with the calls it makes. -/
theorem Activation.Ok.step (hagree : seen.Agree) (hP : P.Keeps w)
    (hbefore : ∀ e, P.start.world.registry.filed (P.inFlight a.key) = some e → e < P.firstEntry)
    (hstep : stepActivation S w P.view t below a = some (w', .goto a'))
    (hasks : ∀ k, a.asks S = some k → k ∉ (a :: below).map (·.key))
    (h : s.Holds S P starts seen w a.key) (ha : a.Ok S P seen s t d starts) :
    Advances S P (starts ++ a.started w P.view) seen t d s w' a' := by
  by_cases hlead : ∃ prev, a.pc = .lead prev
  · obtain ⟨prev, hpc⟩ := hlead
    exact ha.lead hP hpc hstep hbefore h
  · have hne : ∀ prev, a.pc ≠ .lead prev := fun prev hpc => hlead ⟨prev, hpc⟩
    have hnil : a.started w P.view = [] := by
      unfold Activation.started
      split
      · next prev hpc => exact absurd hpc (hne prev)
      · rfl
    rw [hnil, List.append_nil]
    exact ha.goto hagree hP hstep hasks hne h

/-- What an access asks for it waits for, and nothing is known of it that was not known before. -/
theorem Activation.Ok.call {child : DynKey}
    (hstep : stepActivation S w P.view t below a = some (w', .call a' child))
    (ha : a.Ok S P seen s t d starts) :
    w' = w ∧ a'.key = a.key ∧ a.asks S = some child ∧ a.started w P.view = [] ∧
      a'.Ok S P seen s t d starts := by
  have hok := ha.pc
  have hact : ActStep S w P.view t below a w' (.call a' child) := actStep_of_step hstep
  cases hact with
  | @touchCall src dep rest hpc hk hc =>
    rw [hpc] at hok
    have hr : S.registered child.kind = true := by
      cases hr : S.registered child.kind with
      | true => rfl
      | false =>
        rw [stepActivation_unregistered hpc hr] at hstep
        simp at hstep
    refine ⟨rfl, rfl, by simp [Activation.asks, hpc, hr, hk], by simp [Activation.started, hpc],
      fun _ => ha.rev (by simp [hpc]), ha.guard, hok.1, hok.2, hr, hk⟩
  | readCall hpc hk hc =>
    rw [hpc] at hok
    exact ⟨rfl, rfl, by simp [Activation.asks, hpc, hk], by simp [Activation.started, hpc],
      fun _ => ha.rev (by simp [hpc]), ha.guard, hok⟩

/-- **What an access returns is the fate of its key.** -/
theorem Activation.Ok.returned {r : AccessResult V}
    (hstep : stepActivation S w P.view t below a = some (w', .ret r))
    (ha : a.Ok S P seen s t d starts) :
    w' = w ∧ a.asks S = none ∧ a.started w P.view = [] ∧ s.Fate S P seen a.key r := by
  have hok := ha.pc
  have hact : ActStep S w P.view t below a w' (.ret r) := actStep_of_step hstep
  cases hact with
  | «return» hpc hr =>
    rw [hpc] at hok
    obtain ⟨r', hsays, -, hfate⟩ := hok
    have hsame : r = r' := hsays _ (List.mem_cons_self ..)
    refine ⟨rfl, by simp [Activation.asks, hpc], by simp [Activation.started, hpc], ?_⟩
    exact hsame ▸ hfate.resolve_right fun hun => hun.2.elim
  | raise hpc =>
    rw [hpc] at hok
    obtain ⟨r', hsays, -, hfate⟩ := hok
    have hsame : r' = .error _ := hsays _ (List.mem_cons_self ..)
    refine ⟨rfl, by simp [Activation.asks, hpc], by simp [Activation.started, hpc], ?_⟩
    exact hsame ▸ hfate.resolve_right fun hun => hun.2.elim

omit [DecidableEq V] in
/-- The access that waited for a result goes on. -/
theorem Activation.Ok.resumed (hagree : seen.Agree) {p p' : Activation V} {q : DynKey}
    {r : AccessResult V} (hp : Resumed w P.view p r w' p') (hwait : p.pc.waitsFor q)
    (hseen : (q, r) ∈ seen) (h : s.Holds S P starts seen w p.key)
    (hok : p.Ok S P seen s t d starts) : Advances S P starts seen t d s w' p' := by
  have hpc' := hok.pc
  cases hp with
  | touched hpc ht =>
    rw [hpc] at hpc' hwait
    obtain rfl := hwait
    exact ht.advances hagree h (hok.rev (by simp [hpc])) hok.guard hpc'.1 hpc'.2.1
      hpc'.2.2.1 (.derived hpc'.2.2.2 hseen)
  | answered hpc =>
    rw [hpc] at hpc'
    exact .stay h ⟨fun _ => hok.rev (by simp [hpc]), hok.guard, hpc'⟩
  | idle _ => exact .stay h hok

omit [DecidableEq V] in
theorem Period.Keeps.same (hP : P.Keeps w) (hw : w.Same w') : P.Keeps w' :=
  ⟨hP.fixed.trans (.of_same hw), hw.registry ▸ hP.entries, hw.registry ▸ hP.next⟩

omit [DecidableEq V] in
theorem Period.Frame.same {q : DynKey} (hw : w.Same w') : P.Frame q w w' :=
  ⟨fun k _ => hw.state _ k, fun _ _ => by rw [hw.shared], fun _ _ => by rw [hw.registry]⟩

/-- **A step of a task.** -/
theorem Period.At.stepTask (h : P.At S starts seen stage c) (htraced : c.Traced S E)
    (hE : ∀ k, ¬ TransGen E k k) (hcalls : ∀ q k, c.Calls S (.step t) q k → E q k)
    (hbefore : ∀ k e, P.start.world.registry.filed k = some e → e < P.firstEntry)
    (ht : P.firstTask ≤ t) (hs : Config.stepTask S c t = some c') :
    ∃ stage', P.At S (starts ++ c.started (.step t)) (seen ++ c.answered S (.step t)) stage'
      c' := by
  unfold Config.stepTask at hs
  cases hst : (c.tasks t).stack with
  | nil => simp [hst] at hs
  | cons a below =>
    simp only [hst] at hs
    cases hm : stepActivation S c.world (c.tasks t).view t below a with
    | none => simp [hm] at hs
    | some m =>
      simp only [hm, Option.some.injEq] at hs
      obtain ⟨w', mv⟩ := m
      subst hs
      have hview : (c.tasks t).view = P.view := h.views t ht (pending_of_stack hst)
      have hasks : ∀ k, a.asks S = some k → k ∉ (a :: below).map (·.key) := fun k hk =>
        htraced.asks_new hE hcalls hst hk
      have hok := h.acts t below.length a ht (act_top hst)
      have hkey := h.keys a.key
      have hstarted : c.started (.step t) = a.started c.world P.view := by
        simp only [Config.started, hst, hview]
      rw [hview] at hm
      have hact := actStep_of_step hm
      have hnone : ∀ k, a.asks S = some k → c.answered S (.step t) = [] := by
        intro k hk
        simp only [Config.answered, hst, hk, findCycle, if_neg (hasks k hk)]
      cases mv with
      | goto a' =>
        have hanswered : c.answered S (.step t) = [] := by
          cases hk : a.asks S with
          | some k => exact hnone k hk
          | none => simp only [Config.answered, hst, hk, hview, hm]
        rw [hanswered, hstarted, List.append_nil]
        exact h.advance ht hst (hact.key) (h.keeps.actStep hok.guard hact)
          (h.keeps.frame hok hact)
          (hok.step h.agree h.keeps (hbefore _) hm hasks hkey)
          (fun _ hx => List.mem_append_left _ hx)
          (fun q hq hmem => (List.mem_append.mp hmem).resolve_right fun hmem =>
            hq (Activation.started_mem hmem))
          (hok.started_nodup h.keeps hkey h.nodup)
      | call a' child =>
        obtain ⟨rfl, hkey', hk, hnil, ha'⟩ := hok.call hm
        rw [hnone child hk, hstarted, hnil, List.append_nil, List.append_nil]
        obtain ⟨stage', h'⟩ := h.advance ht hst hkey' h.keeps (.same (.refl _))
          (.stay (hkey'.symm ▸ hkey) ha') (fun _ hx => hx) (fun _ _ hx => hx) h.nodup
        refine ⟨stage', ?_⟩
        have hpush := h'.push ht (by simpa [setTask] using hview) child
        simpa [Config.move, setTask] using hpush
      | ret r =>
        obtain ⟨rfl, hk, hnil, hfate⟩ := hok.returned hm
        have hanswered : c.answered S (.step t) = [(a.key, r)] := by
          simp only [Config.answered, hst, hk, hview, hm]
        rw [hanswered, hstarted, hnil, List.append_nil]
        have hsee := h.see hfate
        have hnested := htraced.nested t
        rw [hst] at hnested
        cases below with
        | nil => exact ⟨stage, hsee.pop ht hst (some r)⟩
        | cons p below =>
          have hpop := hsee.pop ht hst (c.tasks t).result
          have hst' : ((c.setTask t { c.tasks t with
              stack := p :: below, result := (c.tasks t).result }).tasks t).stack =
                p :: below := by
            simp [setTask]
          have hp := hpop.acts t below.length p ht (act_top hst')
          have hres := resumed_cases c.world P.view p r
          obtain ⟨stage', h'⟩ := hpop.advance ht hst' hres.key (h.keeps.same hres.same)
            (.same hres.same)
            (hp.resumed hpop.agree hres (hnested.2.1 p rfl)
              (List.mem_append_right _ (List.mem_singleton_self _)) (hpop.keys p.key))
            (fun _ hx => hx) (fun _ _ hx => hx) h.nodup
          refine ⟨stage', ?_⟩
          simpa [Config.move, setTask, hview] using h'

omit [DecidableEq V] in
/-- A task starts an access. -/
theorem Period.At.spawn (h : P.At S starts seen stage c) {key : DynKey}
    {want : Bool} : P.At S starts seen stage { c with
      tasks := Function.update c.tasks c.taskCount ⟨P.view, key, want, [.enter key], none⟩
      taskCount := c.taskCount + 1 } where
  keeps := h.keeps
  tasks := Nat.le_succ_of_le h.tasks
  views t ht hpend := by
    by_cases heq : t = c.taskCount
    · subst heq
      simp
    · simp only [Function.update_of_ne heq]
      exact h.views t ht (by simpa [Pending, Function.update_of_ne heq] using hpend)
  keys := h.keys
  acts t d a ht ha := by
    by_cases heq : t = c.taskCount
    · subst heq
      simp only [act, Function.update_self, atDepth_cons, atDepth_nil] at ha
      split at ha
      · cases ha
        exact .enter key
      · cases ha
    · refine h.acts t d a ht ?_
      unfold act at ha ⊢
      simpa only [Function.update_of_ne heq] using ha
  nodup := h.nodup
  agree := h.agree
  fates := h.fates

theorem Period.At.step {l : Label V} (h : P.At S starts seen stage c)
    (htraced : c.Traced S E) (hE : ∀ k, ¬ TransGen E k k)
    (hcalls : ∀ q k, c.Calls S l q k → E q k)
    (hbefore : ∀ k e, P.start.world.registry.filed k = some e → e < P.firstEntry)
    (hl : l.accesses P.view P.firstTask) (hs : Config.step S c l = some c') :
    ∃ stage', P.At S (starts ++ c.started l) (seen ++ c.answered S l) stage' c' := by
  cases l with
  | step t => exact h.stepTask htraced hE hcalls hbefore (of_decide_eq_true hl) hs
  | spawn view key want =>
    obtain rfl : view = P.view := beq_iff_eq.mp hl
    simp only [Config.step] at hs
    split at hs <;> cases hs
    refine ⟨stage, ?_⟩
    simpa [Config.started, Config.answered] using h.spawn
  | drop t | mutate view key value | «begin» view key value | advance m | intern kind value
  | bump view | snapshot => cases hl

end step

/-! ## 4. Runs -/

/-- **Single flight.**  Take any state that can be reached, and from there any interleaving of
accesses to one view, started by any number of tasks.  If the calls that the computations make form
a graph without cycles, each compute function is called once at most, and all accesses to one key
return the same result. -/
theorem single_flight [DecidableEq V] {E : DynKey → DynKey → Prop} {ls₀ ls : List (Label V)}
    {c₀ c : Config V} {view : ViewId} (hE : ∀ k, ¬ TransGen E k k)
    (hreach : Trans.Steps (step S) (fun m l _ => ∀ q d, m.Calls S l q d → E q d) init ls₀ c₀)
    (hrun : Trans.Steps (step S) (fun m l _ => l.accesses view c₀.taskCount ∧
      ∀ q d, m.Calls S l q d → E q d) c₀ ls c) :
    (Trans.shown (step S) Config.started c₀ ls).Nodup ∧
      ∀ q r r', (q, r) ∈ Trans.shown (step S) (Config.answered S) c₀ ls →
        (q, r') ∈ Trans.shown (step S) (Config.answered S) c₀ ls → r = r' := by
  obtain ⟨htraced₀, hled₀⟩ : c₀.Traced S E ∧ Led c₀ :=
    hreach.invariant (I := fun m => m.Traced S E ∧ Led m) ⟨traced_init, led_init⟩
      fun _ _ _ hm hl hok => ⟨hm.1.step hl hok, led_step hm.2 hl⟩
  have hbefore : ∀ k e, c₀.world.registry.filed k = some e → e < c₀.world.registry.nextEntry := by
    intro k e hf
    obtain ⟨t, d, a, ha, hg⟩ := hled₀.filed k e hf
    exact (hled₀.guards t d a ha _ hg).2.2.2
  let P : Period V := ⟨c₀, view⟩
  obtain ⟨stage, hat, -, -⟩ : ∃ stage, P.At S (Trans.shown (step S) Config.started c₀ ls)
      (Trans.shown (step S) (Config.answered S) c₀ ls) stage c ∧ c.Traced S E ∧ Led c := by
    induction hrun with
    | nil => exact ⟨_, Period.at_start hled₀, htraced₀, hled₀⟩
    | snoc hls hl hok ih =>
      obtain ⟨stage, hat, htraced, hled⟩ := ih
      obtain ⟨stage', hat'⟩ := hat.step htraced hE hok.2 hbefore hok.1 hl
      rw [hls.shown_snoc hl, hls.shown_snoc hl]
      exact ⟨stage', hat', htraced.step hl hok.2, led_step hled hl⟩
  exact ⟨hat.nodup, hat.agree⟩

namespace SingleFlight

open Deadlock

/-- Task 1 asks for what task 0 computes, and waits for it. -/
def racing : List (Label Nat) :=
  [.spawn 0 left true, .spawn 0 left true] ++ List.replicate 14 (.step 0) ++
    List.replicate 3 (.step 1) ++ List.replicate 19 (.step 0) ++ List.replicate 5 (.step 1)

end SingleFlight

open SingleFlight Deadlock in
open Cancellation (x) in
/-- Two tasks get `left` at once: one of them computes it, and both return what it has computed. -/
theorem one_task_computes_for_both :
    ∃ c₀ c, Trans.run (step schema) init [.mutate 0 x (some 1)] = some c₀ ∧
      Trans.run (step schema) c₀ racing = some c ∧
        Trans.shown (step schema) Config.started c₀ racing = [left, right] ∧
          Trans.shown (step schema) (Config.answered schema) c₀ racing =
            [(right, .ok (0, 1)), (left, .ok (0, 1)), (left, .ok (0, 1))] ∧
            ((Trans.shown (step schema) Config.started c₀ racing).Nodup ∧
              ∀ q r r', (q, r) ∈ Trans.shown (step schema) (Config.answered schema) c₀ racing →
                (q, r') ∈ Trans.shown (step schema) (Config.answered schema) c₀ racing →
                  r = r') := by
  have hrun : (Trans.run (fun c l => if leftCalls c l then step schema c l else none) init
      [.mutate 0 x (some 1)]).any (fun c₀ =>
        (Trans.run (fun c l => if leftCalls c l && l.accesses 0 c₀.taskCount then
          step schema c l else none) c₀ racing).isSome ∧
        Trans.shown (step schema) Config.started c₀ racing = [left, right] ∧
          Trans.shown (step schema) (Config.answered schema) c₀ racing =
            [(right, .ok (0, 1)), (left, .ok (0, 1)), (left, .ok (0, 1))]) := by
    decide +kernel
  obtain ⟨c₀, hc₀, hshown⟩ := (Option.any_eq_true ..).mp hrun
  obtain ⟨hsome, hstarted, hanswered⟩ := of_decide_eq_true hshown
  obtain ⟨c, hc⟩ := Option.isSome_iff_exists.mp hsome
  have hreach : Trans.Steps (step schema)
      (fun m l _ => ∀ q d, m.Calls schema l q d → q = left ∧ d = right) init
      [.mutate 0 x (some 1)] c₀ :=
    (Trans.Steps.of_checked_run _ hc₀).mono fun _ _ _ hok _ _ => calls_of_leftCalls hok.2
  have hsteps : Trans.Steps (step schema) (fun m l _ => l.accesses 0 c₀.taskCount ∧
      ∀ q d, m.Calls schema l q d → q = left ∧ d = right) c₀ racing c := by
    refine (Trans.Steps.of_checked_run _ hc).mono fun _ _ _ hok => ?_
    obtain ⟨hcalls, haccess⟩ := Bool.and_eq_true_iff.mp hok.2
    exact ⟨haccess, fun _ _ => calls_of_leftCalls hcalls⟩
  refine ⟨c₀, c, hreach.run, hsteps.run, hstarted, hanswered,
    single_flight (acyclic_of_short ?_) hreach hsteps⟩
  rintro a b d ⟨-, rfl⟩ ⟨hright, -⟩
  exact absurd hright (by decide)

end Picante

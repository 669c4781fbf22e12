/-
# Every call of `intern` and `get` returns

What is in order between two steps (`Interning/Concurrent.lean`) is about the calls that have
returned.  Nothing keeps a call from returning: a thread that waits for a lock waits for one that
can go on (`Held`), a call takes five steps at most, and where no thread can go on, each call has
returned once (`Served`).

* `concurrent_interning` -- equal values get the same id and others get others, a `get` of an id
  that was returned before succeeds, and every call returns.
-/
import Picante.Interning.Concurrent

namespace Picante

namespace Interning

variable {K σ : Type}

/-! ## 1. Calls -/

/-- The call that the thread is in. -/
def Pc.call : Pc K → Option (ThreadCall K)
  | .idle => none
  | .entry value _ | .locked value _ | .insertId value _ _ | .insertValue value _ _
  | .release value _ _ => some (.intern value)
  | .get id => some (.get id)

/-- The steps that are left of it. -/
def Pc.left : Pc K → Nat
  | .idle => 0
  | .entry .. => 5
  | .locked .. => 4
  | .insertId .. => 3
  | .insertValue .. => 2
  | .release .. | .get .. => 1

/-- The call that returned. -/
def Event.call : Event K → ThreadCall K
  | .interned value _ | .notInterned value _ => .intern value
  | .got id _ => .get id

/-- The call that is made. -/
def Label.made : Label K → Option (ThreadCall K)
  | .call _ c => some c
  | .step _ => none

def callsOf (ls : List (Label K)) : List (ThreadCall K) := ls.filterMap Label.made

/-- The thread makes a call. -/
def Label.callBy (t : ThreadId) : Label K → Bool
  | .call t' _ => t' == t
  | .step _ => false

/-- The thread goes on. -/
def Label.stepBy (t : ThreadId) : Label K → Bool
  | .call .. => false
  | .step t' => t' == t

/-! ## 2. What a step does to the threads -/

/-- A call is made, fails at once, goes on or returns. -/
inductive Moves (s : State K σ) : Label K → State K σ → Prop where
  | begins {t : ThreadId} {c : ThreadCall K} {pc : Pc K} {s' : State K σ}
      (hidle : s.threads t = .idle) (hcall : pc.call = some c) (hleft : pc.left ≤ 5)
      (hthreads : s'.threads = Function.update s.threads t pc) (hlog : s'.log = s.log) :
      Moves s (.call t c) s'
  | fails {t : ThreadId} {e : Event K} {s' : State K σ} (hidle : s.threads t = .idle)
      (hthreads : s'.threads = s.threads) (hlog : s'.log = s.log ++ [e]) :
      Moves s (.call t e.call) s'
  | goesOn {t : ThreadId} {pc : Pc K} {s' : State K σ} (hcall : pc.call = (s.threads t).call)
      (hleft : pc.left < (s.threads t).left)
      (hthreads : s'.threads = Function.update s.threads t pc) (hlog : s'.log = s.log) :
      Moves s (.step t) s'
  | returns {t : ThreadId} {e : Event K} {s' : State K σ}
      (hcall : (s.threads t).call = some e.call) (hleft : 0 < (s.threads t).left)
      (hthreads : s'.threads = Function.update s.threads t .idle)
      (hlog : s'.log = s.log ++ [e]) : Moves s (.step t) s'

section steps

variable [DecidableEq σ] {F : Facet K} {kind : QueryKindId} {shard : Key → σ}
  {s s' : State K σ} {t : ThreadId} {l : Label K}

theorem moves_of_step (hs : s.step F kind shard l = some s') : Moves s l s' := by
  cases l with
  | call t c =>
    simp only [State.step] at hs
    split at hs
    · next value hpc =>
      split at hs
      · next e he =>
        cases hs
        refine .fails (e := .notInterned value e) hpc ?_ rfl
        exact (congrArg _ hpc.symm).trans (Function.update_eq_self ..)
      · cases hs
        exact .begins hpc rfl (Nat.le_refl _) rfl rfl
    · next id hpc =>
      cases hs
      exact .begins hpc rfl (by simp [Pc.left]) rfl rfl
    · cases hs
  | step t =>
    simp only [State.step, State.stepThread] at hs
    split at hs
    · cases hs
    · next hpc =>
      split at hs
      · cases hs
      · cases hs
        exact .goesOn (by rw [hpc]; rfl) (by simp [hpc, Pc.left]) rfl rfl
    · next hpc =>
      split at hs <;> cases hs
      · exact .goesOn (by rw [hpc]; rfl) (by simp [hpc, Pc.left]) rfl rfl
      · exact .goesOn (by rw [hpc]; rfl) (by simp [hpc, Pc.left]) rfl rfl
    · next hpc =>
      cases hs
      exact .goesOn (by rw [hpc]; rfl) (by simp [hpc, Pc.left]) rfl rfl
    · next hpc =>
      cases hs
      exact .goesOn (by rw [hpc]; rfl) (by simp [hpc, Pc.left]) rfl rfl
    · next hpc =>
      cases hs
      exact .returns (by rw [hpc]; rfl) (by simp [hpc, Pc.left]) rfl rfl
    · next hpc =>
      split at hs <;> cases hs
      · exact .returns (by rw [hpc]; rfl) (by simp [hpc, Pc.left]) rfl rfl
      · exact .returns (by rw [hpc]; rfl) (by simp [hpc, Pc.left]) rfl rfl

end steps

/-! ## 3. Locks -/

/-- A lock is held by a thread that has locked the entry of a key of the shard. -/
def Held (shard : Key → σ) (s : State K σ) : Prop :=
  ∀ i t, s.locks i = some t → ∃ key, (s.threads t).lock = some key ∧ shard key = i

section locks

variable [DecidableEq σ] {F : Facet K} {kind : QueryKindId} {shard : Key → σ}
  {s s' : State K σ} {t : ThreadId} {l : Label K}

omit [DecidableEq σ] in
/-- A thread that keeps its lock, or has none. -/
theorem Held.update (h : Held shard s) {p : Pc K} (hlock : p.lock = (s.threads t).lock)
    (hthreads : s'.threads = Function.update s.threads t p) (hlocks : s'.locks = s.locks) :
    Held shard s' := by
  intro i t' hi
  rw [hlocks] at hi
  obtain ⟨key, hkey, hshard⟩ := h i t' hi
  refine ⟨key, ?_, hshard⟩
  rw [hthreads, Function.update_apply]
  split
  · next heq => rw [hlock, ← heq, hkey]
  · exact hkey

theorem Held.step (h : Held shard s) (hs : s.step F kind shard l = some s') : Held shard s' := by
  cases l with
  | call t c =>
    simp only [State.step] at hs
    split at hs
    · next value hpc =>
      split at hs <;> cases hs
      · exact h.update (t := t) (p := .idle) (by rw [hpc]) rfl rfl
      · exact h.update (t := t) (by rw [hpc]; rfl) rfl rfl
    · next id hpc =>
      cases hs
      exact h.update (t := t) (by rw [hpc]; rfl) rfl rfl
    · cases hs
  | step t =>
    simp only [State.step, State.stepThread] at hs
    split at hs
    · cases hs
    · next value key hpc =>
      split at hs
      · cases hs
      · cases hs
        -- the thread has the new lock, and had none
        intro i t' hi
        simp only [State.goto, Function.update_apply] at hi ⊢
        split at hi
        · next heq =>
          cases hi
          exact ⟨key, by rw [if_pos rfl]; rfl, heq.symm⟩
        · obtain ⟨key', hkey', hshard⟩ := h i t' hi
          refine ⟨key', ?_, hshard⟩
          rw [if_neg, hkey']
          rintro rfl
          rw [hpc] at hkey'
          cases hkey'
    · next value key hpc =>
      split at hs <;> cases hs
      · exact h.update (t := t) (by rw [hpc]; rfl) rfl rfl
      · exact h.update (t := t) (by rw [hpc]; rfl) rfl rfl
    · next hpc =>
      cases hs
      exact h.update (t := t) (by rw [hpc]; rfl) rfl rfl
    · next hpc =>
      cases hs
      exact h.update (t := t) (by rw [hpc]; rfl) rfl rfl
    · next value key id hpc =>
      cases hs
      -- the lock of the thread is released, and it had no other
      intro i t' hi
      simp only [State.returns, State.goto, Function.update_apply] at hi ⊢
      split at hi
      · cases hi
      · next hne =>
        obtain ⟨key', hkey', hshard⟩ := h i t' hi
        refine ⟨key', ?_, hshard⟩
        rw [if_neg, hkey']
        rintro rfl
        rw [hpc] at hkey'
        cases hkey'
        exact hne hshard.symm
    · next hpc =>
      split at hs <;> cases hs
      · exact h.update (t := t) (by rw [hpc]; rfl) rfl rfl
      · exact h.update (t := t) (by rw [hpc]; rfl) rfl rfl

/-- A thread with a lock can go on. -/
theorem stepThread_of_lock {key : Key} (h : (s.threads t).lock = some key) :
    s.stepThread kind shard t ≠ none := by
  unfold State.stepThread
  cases hpc : s.threads t <;> rw [hpc] at h <;> cases h <;> dsimp only
  · split <;> exact Option.some_ne_none _
  · exact Option.some_ne_none _
  · exact Option.some_ne_none _
  · exact Option.some_ne_none _

/-- **Where no thread can go on, none is in a call.** -/
theorem Held.idle_of_stuck (h : Held shard s) (hstuck : ∀ t, s.stepThread kind shard t = none)
    (t : ThreadId) : s.threads t = .idle := by
  have ht := hstuck t
  cases hpc : s.threads t with
  | idle => rfl
  | entry value key =>
    simp only [State.stepThread, hpc] at ht
    split at ht
    · -- the lock that it waits for is held by one that can go on
      next t' hlock =>
      obtain ⟨key', hkey', -⟩ := h _ t' hlock
      exact absurd (hstuck t') (stepThread_of_lock hkey')
    · cases ht
  | get id =>
    simp only [State.stepThread, hpc] at ht
    split at ht <;> cases ht
  | _ => exact absurd ht (stepThread_of_lock (by rw [hpc]; rfl))

end locks

/-! ## 4. Calls that have returned -/

/-- The calls that are under way. -/
def Pending (threads : ThreadId → Pc K) (cs : List (ThreadCall K)) : Prop :=
  ∃ active : List ThreadId, active.Nodup ∧ (∀ t, t ∈ active ↔ (threads t).call ≠ none) ∧
    cs.Perm (active.filterMap fun t => (threads t).call)

section pending

variable {threads : ThreadId → Pc K} {cs : List (ThreadCall K)} {t : ThreadId} {pc : Pc K}
  {c : ThreadCall K}

/-- The other calls are the same. -/
theorem filterMap_update {active : List ThreadId} (ht : t ∉ active) :
    active.filterMap (fun t' => (Function.update threads t pc t').call) =
      active.filterMap fun t' => (threads t').call := by
  refine List.filterMap_congr fun t' ht' => ?_
  rw [Function.update_of_ne]
  rintro rfl
  exact ht ht'

theorem Pending.goesOn (h : Pending threads cs) (hcall : pc.call = (threads t).call) :
    Pending (Function.update threads t pc) cs := by
  have hsame : ∀ t', (Function.update threads t pc t').call = (threads t').call := by
    intro t'
    rw [Function.update_apply]
    split
    · next heq => rw [hcall, heq]
    · rfl
  unfold Pending
  simp only [hsame]
  exact h

theorem Pending.begins (h : Pending threads cs) (hidle : (threads t).call = none)
    (hcall : pc.call = some c) : Pending (Function.update threads t pc) (c :: cs) := by
  obtain ⟨active, hnodup, hactive, hcs⟩ := h
  have ht : t ∉ active := fun hmem => (hactive t).mp hmem hidle
  refine ⟨t :: active, List.nodup_cons.mpr ⟨ht, hnodup⟩, fun t' => ?_, ?_⟩
  · rw [List.mem_cons, Function.update_apply]
    split
    · next heq => exact iff_of_true (.inl heq) (by rw [hcall]; nofun)
    · next hne => exact (or_iff_right hne).trans (hactive t')
  · rw [List.filterMap_cons, Function.update_self, hcall, filterMap_update ht]
    exact hcs.cons c

theorem Pending.returns (h : Pending threads cs) (hcall : (threads t).call = some c) :
    ∃ cs', cs.Perm (c :: cs') ∧ Pending (Function.update threads t .idle) cs' := by
  obtain ⟨active, hnodup, hactive, hcs⟩ := h
  have hmem : t ∈ active := (hactive t).mpr (by rw [hcall]; nofun)
  have ht : t ∉ active.erase t := hnodup.not_mem_erase
  refine ⟨(active.erase t).filterMap fun t' => (threads t').call, ?_, active.erase t,
    hnodup.erase t, fun t' => ?_, ?_⟩
  · refine hcs.trans (((List.perm_cons_erase hmem).filterMap _).trans ?_)
    rw [List.filterMap_cons, hcall]
  · rw [hnodup.mem_erase_iff, Function.update_apply]
    split
    · next heq => exact iff_of_false (fun h => h.1 heq) (fun h => h rfl)
    · next hne => exact (and_iff_right hne).trans (hactive t')
  · rw [filterMap_update ht]

end pending

/-- **The calls that were made** are those that have returned and those under way; a call takes at
most five steps. -/
structure Served (ls : List (Label K)) (s : State K σ) : Prop where
  calls : ∃ cs, Pending s.threads cs ∧ (callsOf ls).Perm (s.log.map Event.call ++ cs)
  steps : ∀ t, ls.countP (Label.stepBy t) + (s.threads t).left ≤ 5 * ls.countP (Label.callBy t)

theorem served_init : Served [] (State.init : State K σ) where
  calls := ⟨[], ⟨[], .nil, fun _ => iff_of_false List.not_mem_nil fun h => h rfl, .nil⟩, .nil⟩
  steps _ := Nat.le_refl 0

theorem countP_call (ls : List (Label K)) (t t' : ThreadId) (c : ThreadCall K) :
    (ls ++ [Label.call t c]).countP (Label.stepBy t') = ls.countP (Label.stepBy t') ∧
      (ls ++ [Label.call t c]).countP (Label.callBy t') =
        ls.countP (Label.callBy t') + if t' = t then 1 else 0 := by
  simp [List.countP_append, List.countP_singleton, Label.stepBy, Label.callBy, eq_comm (a := t)]

theorem countP_step (ls : List (Label K)) (t t' : ThreadId) :
    (ls ++ [Label.step t]).countP (Label.stepBy t') =
        ls.countP (Label.stepBy t') + (if t' = t then 1 else 0) ∧
      (ls ++ [Label.step t]).countP (Label.callBy t') = ls.countP (Label.callBy t') := by
  simp [List.countP_append, List.countP_singleton, Label.stepBy, Label.callBy, eq_comm (a := t)]

theorem Served.move {ls : List (Label K)} {s s' : State K σ} {l : Label K} (h : Served ls s)
    (hm : Moves s l s') : Served (ls ++ [l]) s' := by
  obtain ⟨cs, hpending, hcalls⟩ := h.calls
  unfold callsOf at hcalls
  cases hm with
  | @begins t c pc _ hidle hcall hleft hthreads hlog =>
    refine ⟨⟨c :: cs, hthreads ▸ hpending.begins (by rw [hidle]; rfl) hcall, ?_⟩, fun t' => ?_⟩
    · rw [callsOf, List.filterMap_append, hlog]
      refine (List.perm_append_singleton c _).trans ((hcalls.cons c).trans ?_)
      exact List.perm_middle.symm
    · have hsteps := h.steps t'
      obtain ⟨hstep, hcall⟩ := countP_call ls t t' c
      rw [hstep, hcall, hthreads, Function.update_apply]
      split <;> omega
  | @fails t e _ hidle hthreads hlog =>
    refine ⟨⟨cs, hthreads ▸ hpending, ?_⟩, fun t' => ?_⟩
    · rw [callsOf, List.filterMap_append, hlog, List.map_append, List.append_assoc]
      refine (hcalls.append_right _).trans ?_
      rw [List.append_assoc]
      exact List.perm_append_comm.append_left _
    · have hsteps := h.steps t'
      obtain ⟨hstep, hcall⟩ := countP_call ls t t' e.call
      rw [hstep, hcall, hthreads]
      omega
  | @goesOn t pc _ hcall hleft hthreads hlog =>
    refine ⟨⟨cs, hthreads ▸ hpending.goesOn hcall, ?_⟩, fun t' => ?_⟩
    · rw [callsOf, List.filterMap_append, hlog]
      exact (List.append_nil _).symm ▸ hcalls
    · have hsteps := h.steps t'
      obtain ⟨hstep, hcall⟩ := countP_step ls t t'
      rw [hstep, hcall, hthreads, Function.update_apply]
      split
      · next heq =>
        subst heq
        omega
      · omega
  | @returns t e _ hcall hleft hthreads hlog =>
    obtain ⟨cs', hcs, hpending'⟩ := hpending.returns hcall
    refine ⟨⟨cs', hthreads ▸ hpending', ?_⟩, fun t' => ?_⟩
    · rw [callsOf, List.filterMap_append, hlog, List.map_append, List.append_assoc]
      exact (List.append_nil _).symm ▸ hcalls.trans (hcs.append_left _)
    · have hsteps := h.steps t'
      obtain ⟨hstep, hcall⟩ := countP_step ls t t'
      rw [hstep, hcall, hthreads, Function.update_apply]
      split
      · next heq =>
        subst heq
        simp only [Pc.left]
        omega
      · omega

/-! ## 5. Runs -/

section runs

variable [DecidableEq σ] {F : Facet K} {kind : QueryKindId} {shard : Key → σ}
  {ls : List (Label K)} {s : State K σ}

theorem served_run (hrun : Trans.run (State.step F kind shard) .init ls = some s) :
    Served ls s ∧ Held shard s := by
  have hsteps : Trans.Steps (State.step F kind shard) (fun _ _ _ => True) .init ls s :=
    (Trans.Steps.of_run hrun).mono fun _ _ _ _ => trivial
  clear hrun
  induction hsteps with
  | nil => exact ⟨served_init, nofun⟩
  | snoc _ hl _ ih =>
    obtain ⟨hserved, hheld⟩ := ih
    exact ⟨hserved.move (moves_of_step hl), hheld.step hl⟩

/-- **Interning from many threads.**  Equal keys are given the same id and different ones different
ids; a `get` that comes after an id was returned succeeds, with a value of the key it was returned
for; and all that succeed for one id get one value.

And every call returns: a thread that is in no call can make any, takes at most five steps for
each, and where no thread can go on, each call that was made has returned, once. -/
theorem concurrent_interning (hrun : Trans.run (State.step F kind shard) .init ls = some s)
    (hfew : (keysOf F ls).dedup.length < 2 ^ 32) :
    (∀ value id value' id', .interned value id ∈ s.log → .interned value' id' ∈ s.log →
      (F.encode value = F.encode value' ↔ id = id')) ∧
    (∀ pre value id post r, s.log = pre ++ .interned value id :: post → .got id r ∈ post →
      ∃ v, r = .ok v ∧ F.encode v = F.encode value) ∧
    (∀ id v v', .got id (.ok v) ∈ s.log → .got id (.ok v') ∈ s.log → v = v') ∧
    (∀ t c, s.threads t = .idle → ∃ s', s.step F kind shard (.call t c) = some s') ∧
    (∀ t, ls.countP (Label.stepBy t) ≤ 5 * ls.countP (Label.callBy t)) ∧
    ((∀ t, s.step F kind shard (.step t) = none) →
      (∀ t, s.threads t = .idle) ∧ (callsOf ls).Perm (s.log.map Event.call)) := by
  obtain ⟨ids, h⟩ := interned_run hrun hfew
  obtain ⟨hserved, hheld⟩ := served_run hrun
  refine ⟨fun value id value' id' hmem hmem' => ?_, fun pre value id post r hlog hmem => ?_,
    fun id v v' hv hv' => ?_, fun t c hidle => ?_, fun t => ?_, fun hstuck => ?_⟩
  · obtain ⟨key, hkey, hid⟩ := h.interned value id hmem
    obtain ⟨key', hkey', hid'⟩ := h.interned value' id' hmem'
    rw [hkey, hkey', h.id_eq_iff (h.byValue key id hid).1 (h.byValue key' id' hid').1]
    exact ⟨fun heq => Except.ok.inj heq, fun heq => heq ▸ rfl⟩
  · have hanswered := h.answered
    rw [hlog] at hanswered
    obtain ⟨-, htail, -⟩ := List.pairwise_append.mp hanswered
    exact (List.pairwise_cons.mp htail).1 _ hmem value id r rfl rfl
  · have hfirst := h.got id v hv
    rw [h.got id v' hv'] at hfirst
    exact (Option.some.inj hfirst).symm
  · cases c with
    | intern value => cases hkey : F.encode value <;> simp [State.step, hidle, hkey]
    | get id => simp [State.step, hidle]
  · exact Nat.le_trans (Nat.le_add_right ..) (hserved.steps t)
  · have hidle := hheld.idle_of_stuck hstuck
    obtain ⟨cs, ⟨active, -, hactive, hcs⟩, hcalls⟩ := hserved.calls
    obtain rfl : active = [] := List.eq_nil_iff_forall_not_mem.mpr fun t ht =>
      (hactive t).mp ht (by rw [hidle t]; rfl)
    obtain rfl : cs = [] := hcs.eq_nil
    exact ⟨hidle, by simpa using hcalls⟩

end runs

namespace Threads

/-- Two threads intern 7 at the same time, one of them has to wait for the lock; then the other
reads the id back. -/
def labels : List (Label Nat) :=
  [.call 0 (.intern 7), .call 1 (.intern 7), .step 0, .step 0, .step 0, .step 0, .step 0,
    .step 1, .step 1, .step 1, .call 1 (.get 0), .step 1]

end Threads

open Table Threads in
/-- The two threads get one id, and the value is read back: the three calls have returned. -/
theorem two_threads_share_id :
    ∃ s, Trans.run (State.step facet 3 (fun key => key)) .init labels = some s ∧
      s.log = [.interned 7 0, .interned 7 0, .got 0 (.ok 7)] ∧
        (∀ id id', .interned 7 id ∈ s.log → .interned 7 id' ∈ s.log → id = id') ∧
          (callsOf labels).Perm (s.log.map Event.call) := by
  obtain ⟨s, hs⟩ : ∃ s, Trans.run (State.step facet 3 (fun key => key)) .init labels = some s :=
    ⟨_, rfl⟩
  obtain ⟨hids, -, -, -, -, hends⟩ := concurrent_interning hs (by decide)
  refine ⟨s, hs, by cases hs; rfl, fun id id' hid hid' => (hids 7 id 7 id' hid hid').mp rfl,
    (hends fun t => ?_).2⟩
  have hidle : s.threads t = .idle := by
    cases hs
    rcases t with _ | _ | t <;> rfl
  simp only [State.step, State.stepThread, hidle]

end Interning

end Picante

/-
# One read at a time

A task whose compute functions never join two reads has its calls nested in one another, and the
frame stack of `frame.rs` then holds the frames of the calls in progress, innermost first.  So the
machine of `Access.lean`, in which every activation keeps its own dependencies and the keys of the
stack are those of its activations, is exact for such compute functions: the runs of the two are the
same, world by world and task by task (`joinless_runs_are_access_runs`).

* `Body.ofQuery` -- a program without joins.
* `Matches`, `Chain` -- a call and its activation; the calls of a task and its stack of activations.
* `Represents` -- a task of the one machine and a task of the other.
-/
import Picante.Joined.Step
import Picante.Cancellation
import Picante.Trans.Simulation
import Mathlib.Data.List.Perm.Subperm

namespace Picante

open Config

variable {V : Type} {view : ViewId} {task : TaskId} {rev : Revision} {k : DynKey}
  {a b : Activation V} {as bs below below' : List (Activation V)}

/-! ## 1. What a step looks at in the activations below -/

/-- Activations for one key, both waiting on behalf of a foreign record or both not. -/
def Alike (a b : Activation V) : Prop :=
  a.key = b.key ∧ ∀ rev, a.touchesForeign rev = b.touchesForeign rev

theorem segment_alike (h : List.Forall₂ Alike as bs) (k : DynKey) :
    List.Forall₂ Alike (segment k as) (segment k bs) := by
  induction h with
  | nil => exact .nil
  | @cons a b as bs hab h ih =>
    unfold segment
    by_cases hk : a.key = k
    · rw [if_pos hk, if_pos (hab.1 ▸ hk)]
      exact .cons hab .nil
    · rw [if_neg hk, if_neg (hab.1 ▸ hk)]
      exact .cons hab ih

/-- The event of a cycle error is the same. -/
theorem cycleEvent_alike (h : List.Forall₂ Alike as bs) (rev : Revision) (view : ViewId)
    (k : DynKey) : cycleEvent rev view k as = cycleEvent rev view k bs := by
  have hany : ∀ {as bs : List (Activation V)}, List.Forall₂ Alike as bs →
      as.any (·.touchesForeign rev) = bs.any (·.touchesForeign rev) := by
    intro as bs h
    induction h with
    | nil => rfl
    | cons hab _ ih => simp only [List.any_cons, hab.2 rev, ih]
  unfold cycleEvent
  rw [hany (segment_alike h k)]

/-- Where a step makes a cycle check while it revalidates. -/
def Pc.touchesNested (S : Schema V) : Pc V → Prop
  | .revalidate _ (dep :: _) => S.registered dep.kind ∧ S.sectionType dep.kind = .derived
  | _ => False

/-- A step that makes no cycle check looks at their number only. -/
theorem stepActivation_below [DecidableEq V] {S : Schema V} {w : World V}
    (hlen : below.length = below'.length) (hpc : a.pc.computes = false)
    (hcheck : ¬ a.pc.touchesNested S) :
    stepActivation S w view task below a = stepActivation S w view task below' a := by
  unfold stepActivation
  cases hop : a.pc with
  | attempt => simp only [hlen]
  | revalidate src rest =>
    cases rest with
    | nil => rfl
    | cons dep rest =>
      rw [hop] at hcheck
      by_cases hreg : S.registered dep.kind
      · cases hk : S.sectionType dep.kind with
        | derived => exact absurd ⟨hreg, hk⟩ hcheck
        | _ => simp only [hk]
      · simp [hreg]
  | computing prev prog deps =>
    rw [hop] at hpc
    cases hpc
  | finishing ops => cases ops <;> rfl
  | _ => rfl

/-- The compute function that a step starts is that of the query. -/
theorem ActStep.starts [DecidableEq V] {S : Schema V} {w w' : World V} {a' : Activation V}
    (h : ActStep S w view task below a w' (.goto a')) (hpc : a.pc.computes = false)
    (hpc' : a'.pc.computes = true) :
    ∃ prev, a'.pc = .computing prev (S.compute w.calls a.key) [] := by
  cases h with
  | lead _ _ => exact ⟨_, rfl⟩
  | touchInput _ _ ht | touchInterned _ _ _ ht =>
    rw [ht.computes] at hpc'
    cases hpc'
  | accept _ | unregistered _ _ =>
    rw [Activation.moveTo, computes_afterRevalidation] at hpc'
    cases hpc'
  | finalize hop | readInput hop _ | readInterned hop _ _ | readMissing hop _ _
  | readCycle hop _ _ =>
    rw [hop] at hpc
    cases hpc
  | _ => cases hpc'

/-- A step that calls has made a cycle check. -/
theorem ActStep.call_checked [DecidableEq V] {S : Schema V} {w w' : World V} {a' : Activation V}
    {d : DynKey} (h : ActStep S w view task below a w' (.call a' d)) :
    a.pc.computes = true ∨ ∃ src rest, a.pc = .revalidate src (d :: rest) ∧
      S.sectionType d.kind = .derived := by
  cases h with
  | touchCall hpc hk _ => exact .inr ⟨_, _, hpc, hk⟩
  | readCall hpc _ _ => exact .inl (by rw [hpc]; rfl)

end Picante

namespace Picante.Joined

open Config

variable {V : Type}

/-! ## 2. Calls and activations -/

/-- The program of a query, which joins nothing. -/
def Body.ofQuery : Query V → Body V
  | .done out => .done out
  | .read d k => .read d fun r => ofQuery (k r)

/-- The activation that a call stands for: what `Access.lean` keeps in it, the call has in its
future and in its frame. -/
inductive Matches (T : Task V) (c : Call V) : Activation V → Prop
  | idle (hpc : c.act.pc.computes = false) : Matches T c c.act
  | computing {prev : Previous V} {prog q : Query V} {deps : List Dep} {f : FrameId}
      (hpc : c.act.pc = .computing prev prog deps) (hframe : c.frame = some f)
      (hfuture : c.future = .run (.ofQuery q)) :
      Matches T c (c.act.moveTo (.computing prev q (T.frames f).deps))
  | reading {prev : Previous V} {prog : Query V} {deps : List Dep} {f : FrameId} {d : DynKey}
      {k : PicanteResult (Option V) → Query V}
      (hpc : c.act.pc = .computing prev prog deps) (hframe : c.frame = some f)
      (hfuture : c.future = .wait fun r => .ofQuery (k r)) :
      Matches T c (c.act.moveTo (.reading prev d k (T.frames f).deps))

/-- A call has a frame where it needs one, and it is for its key. -/
structure Call.Framed (T : Task V) (c : Call V) : Prop where
  own : ∀ f, c.frame = some f →
    f < T.nextFrame ∧ (T.frames f).key = c.act.key ∧ c.act.pc.framed = true
  has : c.act.pc.revalidates = true ∨ c.act.pc.computes = true → c.frame.isSome

/-- Calls nested in one another, the innermost first, with their frames and the activations they
stand for. -/
inductive Chain (T : Task V) : List CallId → List FrameId → List (Activation V) → Prop
  | nil : Chain T [] [] []
  | cons {id : CallId} {c : Call V} {ids : List CallId} {fs : List FrameId} {a : Activation V}
      {below : List (Activation V)} (hcall : T.calls id = some c)
      (hparent : c.parent = ids.head?.map fun pid => (pid, [])) (hframed : c.Framed T)
      (hmatches : Matches T c a) (hwaits : ∀ p ∈ below.head?, p.pc.waitsFor a.key)
      (hchain : Chain T ids fs below) :
      Chain T (id :: ids) (c.frame.toList ++ fs) (a :: below)

section chain

variable {T T' : Task V} {c c' : Call V} {id : CallId} {ids : List CallId} {fs : List FrameId}
  {a a' : Activation V} {below as : List (Activation V)}

theorem Matches.key (h : Matches T c a) : a.key = c.act.key := by
  cases h <;> rfl

theorem Matches.framed (h : Matches T c a)
    (hpc : a.pc.revalidates = true ∨ a.pc.computes = true) :
    c.act.pc.revalidates = true ∨ c.act.pc.computes = true := by
  cases h with
  | idle _ => exact hpc
  | computing hop _ _ | reading hop _ _ => exact .inr (by rw [hop]; rfl)

/-- Who waits for a nested access has a frame. -/
theorem framed_of_waitsFor {k : DynKey} (h : a.pc.waitsFor k) :
    a.pc.revalidates = true ∨ a.pc.computes = true := by
  unfold Pc.waitsFor at h
  split at h
  · next hpc => exact .inl (by rw [hpc]; rfl)
  · next hpc => exact .inr (by rw [hpc]; rfl)
  · cases h

/-- The activation that a call stands for depends on the frame of the call only. -/
theorem Matches.congr (h : Matches T c a) (hframes : ∀ f, c.frame = some f →
    T'.frames f = T.frames f) : Matches T' c a := by
  cases h with
  | idle hpc => exact .idle hpc
  | computing hpc hframe hfuture => exact hframes _ hframe ▸ .computing hpc hframe hfuture
  | reading hpc hframe hfuture => exact hframes _ hframe ▸ .reading hpc hframe hfuture

theorem Call.Framed.congr (h : c.Framed T) (hframes : ∀ f, c.frame = some f →
    T'.frames f = T.frames f) (hnext : T.nextFrame ≤ T'.nextFrame) : c.Framed T' where
  own f hf := by
    obtain ⟨hlt, hkey, hpc⟩ := h.own f hf
    exact ⟨Nat.lt_of_lt_of_le hlt hnext, (congrArg (·.key) (hframes f hf)).trans hkey, hpc⟩
  has := h.has

namespace Chain

/-- Nobody outside a chain matters to it. -/
theorem congr (h : Chain T ids fs as) (hcalls : ∀ i ∈ ids, T'.calls i = T.calls i)
    (hframes : ∀ f ∈ fs, T'.frames f = T.frames f) (hnext : T.nextFrame ≤ T'.nextFrame) :
    Chain T' ids fs as := by
  induction h with
  | nil => exact .nil
  | @cons id c ids fs a below hcall hparent hframed hmatches hwaits hchain ih =>
    have hown : ∀ f, c.frame = some f → T'.frames f = T.frames f := fun f hf =>
      hframes f (by simp [hf])
    refine .cons ((hcalls id (List.mem_cons_self ..)).trans hcall) hparent
      (hframed.congr hown hnext) (hmatches.congr hown) hwaits (ih ?_ ?_)
    · exact fun i hi => hcalls i (List.mem_cons_of_mem _ hi)
    · exact fun f hf => hframes f (List.mem_append_right _ hf)

/-- The frames on the stack are for the keys of the activations, if the top one has a frame. -/
theorem keys (h : Chain T ids fs as)
    (htop : ∀ a ∈ as.head?, a.pc.revalidates = true ∨ a.pc.computes = true) :
    (fs.map fun f => (T.frames f).key) = as.map (·.key) := by
  induction h with
  | nil => rfl
  | @cons id c ids fs a below hcall hparent hframed hmatches hwaits hchain ih =>
    have hhas := hframed.has (hmatches.framed (htop a rfl))
    obtain ⟨f, hf⟩ := Option.isSome_iff_exists.mp hhas
    have hbelow := ih fun p hp => framed_of_waitsFor (hwaits p hp)
    simp [hf, (hframed.own f hf).2.1, hmatches.key, hbelow]

/-- The calls that `Task.waiting` finds are those of the chain. -/
theorem waiting (h : Chain T ids fs as) {n : Nat} (hn : ids.length ≤ n) :
    List.Forall₂ Alike (T.waiting n (ids.head?.map fun pid => (pid, []))) as := by
  induction h generalizing n with
  | nil => cases n <;> exact .nil
  | @cons id c ids fs a below hcall hparent hframed hmatches hwaits hchain ih =>
    cases n with
    | zero => exact absurd hn (Nat.not_succ_le_zero _)
    | succ n =>
      simp only [List.head?_cons, Option.map_some, Task.waiting, hcall, hparent]
      refine .cons ⟨hmatches.key.symm, fun rev => ?_⟩ (ih (Nat.le_of_succ_le_succ hn))
      cases hmatches with
      | idle _ => rfl
      | computing hpc _ _ | reading hpc _ _ =>
        simp [Activation.touchesForeign, hpc, Activation.moveTo]

end Chain

end chain

/-! ## 3. The call on top -/

/-- The innermost call of a task, among all its calls. -/
structure Top (T : Task V) (id : CallId) (c : Call V) (ids : List CallId) (fs : List FrameId)
    (a : Activation V) (below : List (Activation V)) : Prop where
  call : T.calls id = some c
  parent : c.parent = ids.head?.map fun pid => (pid, [])
  framed : c.Framed T
  corresponds : Matches T c a
  waits : ∀ p ∈ below.head?, p.pc.waitsFor a.key
  chain : Chain T ids fs below
  stack : T.stack = c.frame.toList ++ fs
  apart : (c.frame.toList ++ fs).Nodup
  nodup : (id :: ids).Nodup
  bound : ∀ i ∈ id :: ids, i < T.nextCall
  only : ∀ i b, T.calls i = some b → i ∈ id :: ids

/-- No call of the task is in progress. -/
structure Resting (T : Task V) : Prop where
  calls : ∀ i, T.calls i = none
  stack : T.stack = []

/-- The calls of the task stand for a stack of activations. -/
def Stands (T : Task V) : List (Activation V) → Prop
  | [] => Resting T
  | a :: below => ∃ id c ids fs, Top T id c ids fs a below

/-- A task of this machine and a task of `Access.lean`. -/
structure Represents (T : Task V) (task : Picante.Task V) : Prop where
  view : task.view = T.view
  result : task.result = T.result
  stands : Stands T task.stack

namespace Top

variable {T T' : Task V} {c c' : Call V} {id : CallId} {ids : List CallId} {fs : List FrameId}
  {a a' : Activation V} {below : List (Activation V)}

theorem whole (h : Top T id c ids fs a below) : Chain T (id :: ids) T.stack (a :: below) :=
  h.stack ▸ .cons h.call h.parent h.framed h.corresponds h.waits h.chain

/-- The cycle check finds the same keys. -/
theorem findCycle (h : Top T id c ids fs a below)
    (hpc : a.pc.revalidates = true ∨ a.pc.computes = true) (d : DynKey) :
    T.findCycle d = Picante.findCycle d (a :: below) := by
  have hkeys := h.whole.keys fun p hp => by
    obtain rfl := Option.some.inj hp
    exact hpc
  unfold Task.findCycle Picante.findCycle
  rw [hkeys]

theorem below_alike (h : Top T id c ids fs a below) :
    List.Forall₂ Alike (T.below c) below := by
  have hlen : (id :: ids).length ≤ T.nextCall := by
    have hsub : id :: ids ⊆ List.range T.nextCall := fun i hi => List.mem_range.mpr (h.bound i hi)
    simpa using (h.nodup.subperm hsub).length_le
  unfold Task.below
  rw [h.parent]
  exact h.chain.waiting (Nat.le_of_succ_le hlen)

/-- **The call on top changes**, and nobody's frame but its own. -/
theorem update (h : Top T id c ids fs a below)
    (hcalls : T'.calls = Function.update T.calls id (some c'))
    (hnextCall : T'.nextCall = T.nextCall) (hframes : ∀ f ∈ fs, T'.frames f = T.frames f)
    (hnext : T.nextFrame ≤ T'.nextFrame)
    (hstack : T'.stack = c'.frame.toList ++ fs) (hparent : c'.parent = c.parent)
    (hframed : c'.Framed T') (hm : Matches T' c' a') (hkey : a'.key = a.key)
    (hnew : ∀ f, c'.frame = some f → f ∉ fs) : Top T' id c' ids fs a' below where
  call := by rw [hcalls, Function.update_self]
  parent := hparent.trans h.parent
  framed := hframed
  corresponds := hm
  waits := hkey ▸ h.waits
  chain := by
    refine h.chain.congr (fun i hi => ?_) hframes hnext
    rw [hcalls, Function.update_of_ne]
    rintro rfl
    exact (List.nodup_cons.mp h.nodup).1 hi
  stack := hstack
  apart := by
    have hfs := (List.nodup_append.mp h.apart).2.1
    cases hf : c'.frame with
    | none => exact hfs
    | some f => exact List.nodup_cons.mpr ⟨hnew f hf, hfs⟩
  nodup := h.nodup
  bound := hnextCall ▸ h.bound
  only i b hb := by
    rw [hcalls, Function.update_apply] at hb
    split at hb
    · next hi => exact hi ▸ List.mem_cons_self ..
    · exact h.only i b hb

/-- The frame of the call on top is that of nobody else. -/
theorem frame_notMem (h : Top T id c ids fs a below) (f : FrameId) (hf : c.frame = some f) :
    f ∉ fs := by
  have hapart := h.apart
  rw [hf] at hapart
  exact (List.nodup_cons.mp hapart).1

/-- The frames on the stack have been made. -/
theorem frame_lt (h : Top T id c ids fs a below) {f : FrameId} (hf : f ∈ fs) :
    f < T.nextFrame := by
  have hchain := h.chain
  clear h
  induction hchain with
  | nil => cases hf
  | cons _ _ hframed _ _ _ ih =>
    rcases List.mem_append.mp hf with hf | hf
    · exact (hframed.own f (Option.mem_toList.mp hf)).1
    · exact ih hf

/-- The call on top starts a nested access. -/
theorem push (h : Top T id c ids fs a below) {d : DynKey} (hwaits : a.pc.waitsFor d) :
    Top (T.call d (id, [])) T.nextCall (.enter d (some (id, []))) (id :: ids) T.stack
      (.enter d) (a :: below) where
  call := Function.update_self ..
  parent := rfl
  framed := ⟨fun f hf => (by cases hf), fun hpc => (by rcases hpc with hpc | hpc <;> cases hpc)⟩
  corresponds := .idle rfl
  waits p hp := by
    obtain rfl := Option.some.inj hp
    exact hwaits
  chain := by
    refine h.whole.congr (fun i hi => ?_) (fun f _ => rfl) (Nat.le_refl _)
    exact Function.update_of_ne (Nat.ne_of_lt (h.bound i hi)) ..
  stack := rfl
  apart := by
    show T.stack.Nodup
    rw [h.stack]
    exact h.apart
  nodup := List.nodup_cons.mpr ⟨fun hi => absurd (h.bound _ hi) (Nat.lt_irrefl _), h.nodup⟩
  bound i hi := by
    rcases List.mem_cons.mp hi with rfl | hi
    · exact Nat.lt_succ_self _
    · exact Nat.lt_succ_of_lt (h.bound i hi)
  only i b hb := by
    have hb' : Function.update T.calls T.nextCall (some (Call.enter d (some (id, [])))) i =
      some b := hb
    rw [Function.update_apply] at hb'
    split at hb'
    · next hi => exact hi ▸ List.mem_cons_self ..
    · exact List.mem_cons_of_mem _ (h.only i b hb')

/-- The call on top ends: it was the only one, or the one that waits for it is on top. -/
theorem ended (h : Top T id c ids fs a below) :
    (c.parent = none ∧ below = [] ∧ Resting (T.ended id c)) ∨
      ∃ pid pc pids pfs p below', c.parent = some (pid, []) ∧ below = p :: below' ∧
        p.pc.waitsFor a.key ∧ Top (T.ended id c) pid pc pids pfs p below' := by
  have hcalls : (T.ended id c).calls = Function.update T.calls id none := by
    unfold Task.ended
    split <;> rfl
  have hstack : (T.ended id c).stack = fs := by
    unfold Task.ended
    cases hf : c.frame with
    | none => simpa [hf, Task.put] using h.stack
    | some f => simp [Task.put, Task.popFrame, h.stack, hf]
  have hid := (List.nodup_cons.mp h.nodup).1
  have hchain : Chain (T.ended id c) ids fs below := by
    refine h.chain.congr (fun i hi => ?_) (fun f _ => ?_) (Nat.le_of_eq ?_)
    · rw [hcalls, Function.update_of_ne]
      rintro rfl
      exact hid hi
    · unfold Task.ended
      split <;> rfl
    · unfold Task.ended
      split <;> rfl
  have honly : ∀ i b, (T.ended id c).calls i = some b → i ∈ ids := by
    intro i b hb
    rw [hcalls, Function.update_apply] at hb
    split at hb
    · cases hb
    · next hi => exact (List.mem_cons.mp (h.only i b hb)).resolve_left hi
  have hnext : (T.ended id c).nextCall = T.nextCall := by
    unfold Task.ended
    split <;> rfl
  have hfs := (List.nodup_append.mp h.apart).2.1
  have hids := (List.nodup_cons.mp h.nodup).2
  have hbound := h.bound
  have hparent := h.parent
  have hwaits := h.waits
  cases hchain with
  | nil =>
    refine .inl ⟨hparent, rfl, fun i => ?_, hstack⟩
    by_contra hsome
    obtain ⟨b, hb⟩ := Option.ne_none_iff_exists'.mp hsome
    exact absurd (honly i b hb) List.not_mem_nil
  | @cons pid pc pids pfs p below hcall hparent' hframed hmatches hwaits' hchain =>
    exact .inr ⟨pid, pc, pids, pfs, p, below, hparent, rfl, hwaits p rfl, hcall, hparent', hframed,
      hmatches, hwaits', hchain, hstack, hfs, hids,
      fun i hi => hnext ▸ hbound i (List.mem_cons_of_mem _ hi), honly⟩

/-- **The call on top goes on** without computing, or with a compute function just called. -/
theorem moved (h : Top T id c ids fs a below) (body : DynKey → Body V) (hkey : a'.key = c.act.key)
    (hstarts : a'.pc.computes = true → ∃ prev q, a'.pc = .computing prev q [] ∧
      body a'.key = .ofQuery q)
    (hnext : c.act.pc.framed = true → a'.pc.computes = false ∧ (c.act.pc.revalidates = true ∨
      a'.pc.isTop = true ∨ ∃ ops, a'.pc = .finishing ops)) :
    ∃ c', Top (T.moved body id c a') id c' ids fs a' below := by
  have hkey' := hkey.trans h.corresponds.key.symm
  have hstack := h.stack
  have hfresh : ∀ f, some T.nextFrame = some f → f ∉ fs := fun f hf hmem =>
    absurd (Option.some.inj hf ▸ h.frame_lt hmem) (Nat.lt_irrefl _)
  unfold Task.moved
  cases hf : c.frame with
  | none =>
    have hpushed : ∀ f ∈ fs, (T.pushFrame a'.key).frames f = T.frames f := fun f hf =>
      Function.update_of_ne (Nat.ne_of_lt (h.frame_lt hf)) ..
    simp only [hf, Option.toList_none, List.nil_append] at hstack
    simp only [Option.isNone_none, if_true]
    split
    · next hpc =>
      obtain ⟨hframed, hcomputes⟩ := Pc.framed_of_revalidates hpc
      refine ⟨_, h.update rfl rfl hpushed (Nat.le_succ _)
        (by simp [Task.put, Task.pushFrame, hstack]) rfl ⟨fun f hf => ?_, fun _ => rfl⟩
        (.idle hcomputes) hkey' hfresh⟩
      obtain rfl := Option.some.inj hf
      exact ⟨Nat.lt_succ_self _, by simp [Task.put, Task.pushFrame], hframed⟩
    · split
      · next hpc =>
        obtain ⟨prev, q, hop, hbody⟩ := hstarts hpc
        refine ⟨_, h.update rfl rfl hpushed (Nat.le_succ _)
          (by simp [Task.put, Task.pushFrame, hstack]) rfl ⟨fun f hf => ?_, fun _ => rfl⟩ ?_ hkey'
          hfresh⟩
        · obtain rfl := Option.some.inj hf
          exact ⟨Nat.lt_succ_self _, by simp [Task.put, Task.pushFrame],
            Pc.framed_of_computes hpc⟩
        · have hm : Matches ((T.pushFrame a'.key).put id (some { c with
              act := a', frame := some T.nextFrame, future := .run (body a'.key), reads := [] }))
              { c with
                act := a', frame := some T.nextFrame, future := .run (body a'.key), reads := [] }
              (a'.moveTo (.computing prev q ((T.pushFrame a'.key).frames T.nextFrame).deps)) :=
            .computing hop rfl (congrArg Future.run hbody)
          simpa [Task.pushFrame, Activation.moveTo, ← hop] using hm
      · next hpc hpc' =>
        refine ⟨_, h.update rfl rfl (fun _ _ => rfl) (Nat.le_refl _)
          (by simpa [Task.put] using hstack) rfl ⟨fun f hf => (by cases hf), fun hor => ?_⟩
          (.idle (by simpa using hpc')) hkey'
          fun f hf => (by cases hf)⟩
        rcases hor with hor | hor
        · exact absurd hor hpc
        · exact absurd hor hpc'
  | some f =>
    obtain ⟨hlt, hfkey, hframed⟩ := h.framed.own f hf
    obtain ⟨hcomputes, hnext⟩ := hnext hframed
    simp only [hf, Option.toList_some, List.singleton_append] at hstack
    simp only [Option.isNone_some, Bool.false_eq_true, if_false]
    split
    · next hleaves =>
      refine ⟨_, h.update rfl rfl (fun _ _ => rfl) (Nat.le_refl _)
        (by simp [Task.put, Task.popFrame, hstack]) rfl ⟨fun f hf => (by cases hf), fun hor => ?_⟩
        (.idle hcomputes) hkey' fun f hf => (by cases hf)⟩
      rcases hor with hor | hor
      · have hor : a'.pc.revalidates = true := hor
        have htop : a'.pc.isTop = true := by simpa [hor] using hleaves
        cases hop : a'.pc <;> simp_all [Pc.isTop, Pc.revalidates]
      · have hor : a'.pc.computes = true := hor
        rw [hcomputes] at hor
        cases hor
    · next hstays =>
      refine ⟨_, h.update rfl rfl (fun _ _ => rfl) (Nat.le_refl _) (by simp [Task.put, hstack])
        rfl ⟨fun f' hf' => ?_, fun _ => rfl⟩ (.idle hcomputes) hkey'
        fun f' hf' => h.frame_notMem f' (hf.trans hf')⟩
      obtain rfl := Option.some.inj hf'
      refine ⟨hlt, hfkey.trans hkey.symm, ?_⟩
      rcases hnext with hpc | hpc | ⟨ops, hpc⟩
      · have hrev : a'.pc.revalidates = true := by
          by_contra hleaves
          exact hstays (by simp [hpc, hleaves])
        exact (Pc.framed_of_revalidates hrev).1
      · exact absurd (by simp [hpc]) hstays
      · rw [show ({ c with act := a' } : Call V).act.pc = .finishing ops from hpc]
        rfl

end Top

/-! ## 4. One step -/

section step

variable [DecidableEq V] {S : Schema V} {T T' : Task V} {task : Picante.Task V} {c : Call V}
  {id : CallId} {ids : List CallId} {fs : List FrameId} {a a' : Activation V}
  {below : List (Activation V)} {body : DynKey → Body V} {t : TaskId} {w w' : World V} {path : Path}

omit [DecidableEq V] in
theorem Task.view_moved : (T.moved body id c a').view = T.view := by
  unfold Task.moved
  split
  · split
    · rfl
    · split <;> rfl
  · split <;> rfl

omit [DecidableEq V] in
theorem Task.result_moved : (T.moved body id c a').result = T.result := by
  unfold Task.moved
  split
  · split
    · rfl
    · split <;> rfl
  · split <;> rfl

omit [DecidableEq V] in
/-- What a nested access returns goes to the call that waits for it. -/
theorem Top.resumed (h : Top T id c ids fs a below) (body : DynKey → Body V) {k : DynKey}
    (hwaits : a.pc.waitsFor k) (w : World V) (r : AccessResult V) :
    (T.resumed body w (some (id, [])) r).1 = (resume w T.view a r).1 ∧
      (T.resumed body w (some (id, [])) r).2.view = T.view ∧
      (T.resumed body w (some (id, [])) r).2.result = T.result ∧
      Stands (T.resumed body w (some (id, [])) r).2 ((resume w T.view a r).2 :: below) := by
  cases h.corresponds with
  | idle hpc =>
    unfold Pc.waitsFor at hwaits
    split at hwaits
    · next src dep rest hop =>
      have ht := touched_cases w T.view c.act src rest (r.map (·.2))
      obtain ⟨c', htop⟩ := h.moved body ht.key
        (fun hcomputes => absurd hcomputes (by rw [ht.computes]; exact Bool.false_ne_true))
        fun _ => ⟨ht.computes, .inl (by rw [hop]; rfl)⟩
      simp only [Task.resumed, h.call, hop, resume]
      exact ⟨trivial, Task.view_moved, Task.result_moved, _, _, _, _, htop⟩
    · next hop =>
      rw [hop] at hpc
      cases hpc
    · cases hwaits
  | computing hpc hframe hfuture => cases hwaits
  | @reading prev prog deps f d k hpc hframe hfuture =>
    simp only [Task.resumed, h.call, hpc, hfuture, Future.at_nil, resume, Activation.moveTo]
    refine ⟨trivial, rfl, rfl, id, _, ids, fs, h.update rfl rfl (fun _ _ => rfl) (Nat.le_refl _) ?_
      rfl ⟨h.framed.own, h.framed.has⟩ ?_ rfl h.frame_notMem⟩
    · exact h.stack
    · refine .computing hpc hframe ?_
      cases r <;> rfl

omit [DecidableEq V] in
theorem Task.setDeps_self (f : FrameId) : T.setDeps f (T.frames f).deps = T := by
  simp [Task.setDeps]

omit [DecidableEq V] in
/-- A read is recorded in the frame of the call on top. -/
theorem Top.recordDep (h : Top T id c ids fs a below) {f : FrameId} (hframe : c.frame = some f)
    (d : DynKey) : T.recordDep d = T.setDeps f ((T.frames f).deps ++ [d]) := by
  have hstack := h.stack
  rw [hframe] at hstack
  simp [Task.recordDep, hstack]

omit [DecidableEq V] in
/-- The call on top goes on, with its frame, in which something else is recorded. -/
theorem Top.recorded (h : Top T id c ids fs a below) {deps : List Dep} {f : FrameId} {c' : Call V}
    (hframe : c.frame = some f) (hm : Matches ((T.setDeps f deps).put id (some c')) c' a')
    (hframe' : c'.frame = some f) (hparent : c'.parent = c.parent)
    (hkey : c'.act.key = c.act.key) (hpc : c'.act.pc.framed = true) :
    Top ((T.setDeps f deps).put id (some c')) id c' ids fs a' below := by
  refine h.update rfl rfl (fun g hg => ?_) (Nat.le_refl _) ?_ hparent ⟨fun g hg => ?_, fun _ => ?_⟩
    hm ?_ fun g hg => h.frame_notMem g (hframe.trans (hframe'.symm.trans hg))
  · refine Function.update_of_ne ?_ ..
    rintro rfl
    exact h.frame_notMem _ hframe hg
  · rw [hframe', ← hframe]
    exact h.stack
  · obtain rfl : f = g := Option.some.inj (hframe'.symm.trans hg)
    obtain ⟨hlt, hown, -⟩ := h.framed.own f hframe
    exact ⟨hlt, by simpa [Task.put, Task.setDeps, hkey] using hown, hpc⟩
  · rw [hframe']
    rfl
  · exact hm.key.trans (hkey.trans h.corresponds.key.symm)

omit [DecidableEq V] in
/-- What has been recorded in a frame whose dependencies were just set. -/
theorem Matches.run {prev : Previous V} {prog q : Query V} {ds deps : List Dep} {f : FrameId}
    {c' : Call V} (hpc : c'.act.pc = .computing prev prog ds) (hframe : c'.frame = some f)
    (hfuture : c'.future = .run (.ofQuery q)) :
    Matches ((T.setDeps f deps).put id (some c')) c'
      (c'.act.moveTo (.computing prev q deps)) := by
  have hm : Matches ((T.setDeps f deps).put id (some c')) c' _ := .computing hpc hframe hfuture
  simpa [Task.put, Task.setDeps] using hm

omit [DecidableEq V] in
theorem Matches.wait {prev : Previous V} {prog : Query V} {ds deps : List Dep} {f : FrameId}
    {d : DynKey} {k : PicanteResult (Option V) → Query V} {c' : Call V}
    (hpc : c'.act.pc = .computing prev prog ds) (hframe : c'.frame = some f)
    (hfuture : c'.future = .wait fun r => .ofQuery (k r)) :
    Matches ((T.setDeps f deps).put id (some c')) c' (c'.act.moveTo (.reading prev d k deps)) := by
  have hm : Matches ((T.setDeps f deps).put id (some c')) c' _ :=
    .reading (d := d) hpc hframe hfuture
  simpa [Task.put, Task.setDeps] using hm

/-- A step of one task and one of the other end alike. -/
def Follow (t : TaskId) (p : World V × Task V) (m : Config V) : Prop :=
  m.world = p.1 ∧ Represents p.2 (m.tasks t)

omit [DecidableEq V] in
theorem Follow.of_stack {m : Config V} {st : List (Activation V)}
    (hview : (m.tasks t).view = T.view) (hresult : (m.tasks t).result = T.result)
    (hstands : Stands T st) :
    Follow t (w, T) ({ m with world := w }.setTask t { m.tasks t with stack := st }) :=
  ⟨rfl, by simpa [setTask] using hview, by simpa [setTask] using hresult,
    by simpa [setTask] using hstands⟩

/-- A step that makes no cycle check and no call. -/
theorem Top.proceed (h : Top T id c ids fs c.act below) (m : Config V)
    (hst : (m.tasks t).stack = c.act :: below) (hview : (m.tasks t).view = T.view)
    (hresult : (m.tasks t).result = T.result)
    (hbody : ∀ q, body q = .ofQuery (S.compute m.world.calls q))
    (hpc : c.act.pc.computes = false) (hcheck : ¬ c.act.pc.touchesNested S) :
    Option.Rel (Follow t) (T.proceed body id c S m.world t) (stepTask S m t) := by
  unfold Task.proceed stepTask
  simp only [hst, hview]
  rw [stepActivation_below h.below_alike.length_eq hpc hcheck]
  cases hstep : stepActivation S m.world T.view t below c.act with
  | none => exact .none
  | some mv =>
    obtain ⟨w', mv⟩ := mv
    have hact := actStep_of_step hstep
    cases mv with
    | goto a' =>
      obtain ⟨c', htop⟩ := h.moved body hact.key (fun hpc' => by
        obtain ⟨prev, hop⟩ := hact.starts hpc hpc'
        exact ⟨prev, _, hop, hact.key ▸ hbody _⟩) fun hframed => hact.framed_next hpc hframed
      exact .some (.of_stack (hview.trans Task.view_moved.symm)
        (hresult.trans Task.result_moved.symm) ⟨_, _, _, _, htop⟩)
    | call a' d =>
      refine absurd ?_ hcheck
      rcases hact.call_checked with hop | ⟨src, rest, hop, hk⟩
      · rw [hpc] at hop
        cases hop
      · rw [hop]
        refine ⟨?_, hk⟩
        by_contra hreg
        simp [stepActivation, hop, hreg] at hstep
    | ret r =>
      have hended := h.ended
      have hview' : (T.ended id c).view = T.view := by
        unfold Task.ended
        split <;> rfl
      have hresult' : (T.ended id c).result = T.result := by
        unfold Task.ended
        split <;> rfl
      rcases h.ended with ⟨hparent, rfl, hresting⟩ |
        ⟨pid, pc, pids, pfs, p, below, hparent, rfl, hwaits, htop⟩
      · refine .some ?_
        simp only [hparent, Task.resumed, move]
        have hstands : Stands { T.ended id c with result := some r } [] :=
          ⟨hresting.calls, hresting.stack⟩
        exact ⟨rfl, by simpa [setTask] using hview.trans hview'.symm, by simp [setTask],
          by simpa [setTask] using hstands⟩
      · obtain ⟨hw, hviewr, hresultr, hstands⟩ := htop.resumed body hwaits w' r
        refine .some ?_
        simp only [hparent, move, hview]
        rw [hview'] at hw hstands
        refine ⟨hw.symm, ?_, ?_, ?_⟩
        · simpa [setTask, hview] using (hviewr.trans hview').symm
        · simpa [setTask] using hresult.trans (hresultr.trans hresult').symm
        · simpa [setTask] using hstands

/-- **A step of the call on top** is one of the activation on top. -/
theorem Top.step (h : Top T id c ids fs a below) (m : Config V)
    (hst : (m.tasks t).stack = a :: below) (hview : (m.tasks t).view = T.view)
    (hresult : (m.tasks t).result = T.result)
    (hbody : ∀ q, body q = .ofQuery (S.compute m.world.calls q)) :
    Option.Rel (Follow t) (T.step body id S m.world t []) (stepTask S m t) := by
  cases h.corresponds with
  | idle hpc =>
    by_cases hcheck : c.act.pc.touchesNested S
    · obtain ⟨src, dep, rest, hop, hreg, hk⟩ : ∃ src dep rest,
          c.act.pc = .revalidate src (dep :: rest) ∧ S.registered dep.kind = true ∧
            S.sectionType dep.kind = .derived := by
        unfold Pc.touchesNested at hcheck
        split at hcheck
        · next src dep rest hop => exact ⟨src, dep, rest, hop, hcheck⟩
        · exact hcheck.elim
      have hfind := h.findCycle (.inl (by rw [hop]; rfl)) dep
      unfold Task.step stepTask stepActivation
      simp only [h.call, hst, hop, hreg, hk, hview, if_true, and_self, hfind]
      cases hcycle : Picante.findCycle dep (c.act :: below) with
      | some e =>
        have hevent := cycleEvent_alike (.cons ⟨rfl, fun _ => rfl⟩ h.below_alike :
          List.Forall₂ Alike (c.act :: T.below c) (c.act :: below)) (m.world.rev T.view) T.view dep
        simp only [Task.struck, hevent]
        have ht := touched_cases (m.world.logged (cycleEvent (m.world.rev T.view) T.view dep
          (c.act :: below))) T.view c.act src rest (.error e)
        obtain ⟨c', htop⟩ := h.moved body ht.key
          (fun hcomputes => absurd hcomputes (by rw [ht.computes]; exact Bool.false_ne_true))
          fun _ => ⟨ht.computes, .inl (by rw [hop]; rfl)⟩
        exact .some (.of_stack (hview.trans Task.view_moved.symm)
          (hresult.trans Task.result_moved.symm) ⟨_, _, _, _, htop⟩)
      | none =>
        have htop : Top (T.put id (some { c with act := c.act.moveTo (.touching src dep rest) })) id
            { c with act := c.act.moveTo (.touching src dep rest) } ids fs
            (c.act.moveTo (.touching src dep rest)) below := by
          refine h.update rfl rfl (fun _ _ => rfl) (Nat.le_refl _) h.stack rfl ⟨fun f hf => ?_, ?_⟩
            (.idle rfl) rfl h.frame_notMem
          · obtain ⟨hlt, hkey, -⟩ := h.framed.own f hf
            exact ⟨hlt, hkey, rfl⟩
          · exact fun _ => h.framed.has (.inl (by rw [hop]; rfl))
        exact .some (.of_stack hview hresult ⟨_, _, _, _, htop.push rfl⟩)
    · have hstep : T.step body id S m.world t [] = T.proceed body id c S m.world t := by
        unfold Task.step
        simp only [h.call]
        split
        · next hop =>
          rw [hop] at hpc
          cases hpc
        · next src dep rest hop =>
          rw [hop] at hcheck
          exact if_neg hcheck
        · rfl
      rw [hstep]
      exact h.proceed m hst hview hresult hbody hpc hcheck
  | @computing prev prog q deps f hpc hframe hfuture =>
    have hframed : c.act.pc.framed = true := by rw [hpc]; rfl
    have hgoes : ∀ (w' : World V) (deps' : List Dep) (q' : Query V) (reads : List DynKey),
        Follow t (w', (T.setDeps f deps').put id (some
          { c with future := .run (.ofQuery q'), reads := reads }))
          ({ m with world := w' }.setTask t { m.tasks t with
            stack := c.act.moveTo (.computing prev q' deps') :: below }) := fun _ _ _ _ =>
      .of_stack hview hresult ⟨_, _, _, _,
        h.recorded hframe (.run hpc hframe rfl) hframe rfl rfl hframed⟩
    cases q with
    | done out =>
      have hdone : T.step body id S m.world t [] = some (m.world, T.completed id c prev out) := by
        simp [Task.step, h.call, hpc, Task.poll, hfuture, Body.ofQuery]
      rw [hdone]
      simp only [stepTask, hst, stepActivation, Activation.moveTo, Task.completed, hframe, hview]
      exact .some (.of_stack hview hresult ⟨_, _, _, _,
        h.recorded hframe (.idle rfl) rfl rfl rfl rfl⟩)
    | read d k =>
      have hrecord := h.recordDep hframe d
      simp only [stepTask, hst, stepActivation, Activation.moveTo, Task.step, h.call, hpc,
        Task.poll, hfuture, Body.ofQuery, Future.at_nil, hrecord, Future.set, hview]
      cases hk : S.sectionType d.kind with
      | input => exact .some (hgoes ..)
      | interned =>
        cases m.world.internedAt S d with
        | some v => exact .some (hgoes ..)
        | none => exact .some (hgoes ..)
      | derived =>
        have hfind := h.findCycle (.inr rfl) d
        simp only [Activation.moveTo] at hfind
        rw [hfind]
        cases hcycle : Picante.findCycle d ({ c.act with
          pc := .computing prev (.read d k) (T.frames f).deps } :: below) with
        | some e =>
          have halike : Alike c.act { c.act with
              pc := .computing prev (.read d k) (T.frames f).deps } :=
            ⟨rfl, fun rev => by simp [Activation.touchesForeign, hpc]⟩
          have hevent := cycleEvent_alike (.cons halike h.below_alike) (m.world.rev T.view) T.view d
          have hgoes := hgoes (T.struck m.world c d) (T.frames f).deps (k (.error e))
            (c.reads ++ [d])
          rw [Task.setDeps_self] at hgoes
          simp only [Task.struck, hevent] at hgoes ⊢
          exact .some hgoes
        | none =>
          have hm : Matches ((T.setDeps f ((T.frames f).deps ++ [d])).put id (some { c with
              future := .wait fun r => .ofQuery (k r), reads := c.reads ++ [d] })) _ _ :=
            .wait (d := d) hpc hframe rfl
          have htop := h.recorded hframe hm hframe rfl rfl hframed
          exact .some (.of_stack hview hresult ⟨_, _, _, _, htop.push rfl⟩)
  | reading hpc hframe hfuture =>
    have hwaits : T.step body id S m.world t [] = none := by
      simp only [Task.step, h.call, hpc, Task.poll, hfuture, Future.at_nil]
    have hreads : stepTask S m t = none := by
      simp only [stepTask, hst, stepActivation, Activation.moveTo]
    rw [hwaits, hreads]
    exact .none

omit [DecidableEq V] in
/-- The future of a compute function that joins nothing has one part. -/
theorem at_cons {f : Future V} (hf : (∃ b, f = .run b) ∨ ∃ k, f = .wait k) (right : Bool)
    (path : Path) : f.at (right :: path) = none := by
  rcases hf with ⟨b, rfl⟩ | ⟨k, rfl⟩ <;> rfl

omit [DecidableEq V] in
/-- The calls under a waiting one are waiting. -/
theorem Chain.waiting_call {as : List (Activation V)} {i : CallId} (h : Chain T ids fs as)
    (htop : ∀ p ∈ as.head?, ∃ k, p.pc.waitsFor k) (hi : i ∈ ids) :
    ∃ p b k, T.calls i = some p ∧ Matches T p b ∧ b.pc.waitsFor k := by
  induction h with
  | nil => cases hi
  | @cons id c ids fs a below hcall _ _ hmatches hwaits _ ih =>
    rcases List.mem_cons.mp hi with rfl | hi
    · obtain ⟨k, hk⟩ := htop a rfl
      exact ⟨c, a, k, hcall, hmatches, hk⟩
    · exact ih (fun p hp => ⟨a.key, hwaits p hp⟩) hi

/-- Nobody under the call on top takes a step. -/
theorem Top.step_below (h : Top T id c ids fs a below) {i : CallId} (hi : i ∈ ids) :
    T.step body i S w t path = none := by
  obtain ⟨p, b, k, hp, hm, hk⟩ := h.chain.waiting_call (fun p hp => ⟨a.key, h.waits p hp⟩) hi
  cases hm with
  | idle hpc =>
    unfold Pc.waitsFor at hk
    split at hk
    · next hop => simp [Task.step, hp, hop, Task.proceed, stepActivation]
    · next hop =>
      rw [hop] at hpc
      cases hpc
    · cases hk
  | computing hpc hframe hfuture => cases hk
  | reading hpc hframe hfuture =>
    simp only [Task.step, hp, hpc, Task.poll, hfuture]
    cases path with
    | nil => rfl
    | cons right path => rw [at_cons (.inr ⟨_, rfl⟩)]

/-- A step of the call on top polls the whole of its future. -/
theorem Top.step_path (h : Top T id c ids fs a below) {x : World V × Task V}
    (hs : T.step body id S w t path = some x) : T.step body id S w t [] = some x := by
  cases path with
  | nil => exact hs
  | cons right path =>
    cases h.corresponds with
    | idle hpc =>
      cases hop : c.act.pc with
      | computing prev prog deps =>
        rw [hop] at hpc
        cases hpc
      | revalidate src rest => cases rest <;> simpa [Task.step, h.call, hop] using hs
      | _ => simpa [Task.step, h.call, hop] using hs
    | computing hpc hframe hfuture =>
      simp only [Task.step, h.call, hpc, Task.poll, hfuture, at_cons (.inl ⟨_, rfl⟩)] at hs
      cases hs
    | reading hpc hframe hfuture =>
      simp only [Task.step, h.call, hpc, Task.poll, hfuture, at_cons (.inr ⟨_, rfl⟩)] at hs
      cases hs

/-- **A step of a task** is a step of the task that it represents. -/
theorem Represents.step {m : Config V} {i : CallId} (h : Represents T (m.tasks t))
    (hbody : ∀ q, body q = .ofQuery (S.compute m.world.calls q))
    (hs : T.step body i S m.world t path = some (w', T')) :
    ∃ m', stepTask S m t = some m' ∧ Follow t (w', T') m' := by
  obtain ⟨c, hc⟩ : ∃ c, T.calls i = some c := by
    obtain ⟨c, hc, -⟩ := taskStep_of_step hs
    exact ⟨c, hc⟩
  have hstands := h.stands
  cases hst : (m.tasks t).stack with
  | nil =>
    rw [hst] at hstands
    rw [hstands.calls i] at hc
    cases hc
  | cons a below =>
    rw [hst] at hstands
    obtain ⟨id, c', ids, fs, htop⟩ := hstands
    rcases List.mem_cons.mp (htop.only i c hc) with rfl | hi
    · have hrel := htop.step m hst h.view h.result hbody
      rw [htop.step_path hs] at hrel
      cases hm : stepTask S m t with
      | none =>
        rw [hm] at hrel
        cases hrel
      | some m' =>
        rw [hm] at hrel
        cases hrel with
        | some hfollow => exact ⟨m', rfl, hfollow⟩
    · rw [htop.step_below hi] at hs
      cases hs

/-- A task that represents one takes its steps. -/
theorem Represents.step_back {m m' : Config V} (h : Represents T (m.tasks t))
    (body : DynKey → Body V) (hbody : ∀ q, body q = .ofQuery (S.compute m.world.calls q))
    (hs : stepTask S m t = some m') :
    ∃ i w' T', T.step body i S m.world t [] = some (w', T') ∧ Follow t (w', T') m' := by
  have hstands := h.stands
  cases hst : (m.tasks t).stack with
  | nil => simp [stepTask, hst] at hs
  | cons a below =>
    rw [hst] at hstands
    obtain ⟨id, c, ids, fs, htop⟩ := hstands
    have hrel := htop.step m hst h.view h.result hbody
    rw [hs] at hrel
    cases hm : T.step body id S m.world t [] with
    | none =>
      rw [hm] at hrel
      cases hrel
    | some x =>
      rw [hm] at hrel
      cases hrel with
      | some hfollow => exact ⟨id, x.1, x.2, hm, hfollow⟩

end step

/-! ## 5. Runs -/

/-- A label of this machine and one of `Access.lean`. -/
inductive Label.Follows : Label V → Picante.Label V → Prop
  | spawn (view : ViewId) (key : DynKey) (wantValue : Bool) :
      Follows (.spawn view key) (.spawn view key wantValue)
  | step (t : TaskId) (id : CallId) (path : Path) : Follows (.step t id path) (.step t)
  | mutate (view : ViewId) (key : DynKey) (value : Option V) :
      Follows (.mutate view key value) (.mutate view key value)
  | intern (kind : QueryKindId) (value : V) : Follows (.intern kind value) (.intern kind value)
  | bump (view : ViewId) : Follows (.bump view) (.bump view)
  | snapshot : Follows .snapshot .snapshot

/-- A state of this machine and one of `Access.lean`: the same world, and tasks that represent one
another. -/
structure System.Represents (c : System V) (m : Config V) : Prop where
  world : m.world = c.world
  taskCount : m.taskCount = c.taskCount
  tasks : ∀ t, Joined.Represents (c.tasks t) (m.tasks t)

section runs

variable [DecidableEq V] {S : Schema V} {c c' : System V} {m m' : Config V}

/-- The machine whose compute functions are those of the schema. -/
def System.single (S : Schema V) : System V → Label V → Option (System V) :=
  System.step S fun n q => .ofQuery (S.compute n q)

omit [DecidableEq V] in
theorem represents_init : System.Represents (System.init : System V) Config.init where
  world := rfl
  taskCount := rfl
  tasks _ := ⟨rfl, rfl, fun _ => rfl, rfl⟩

omit [DecidableEq V] in
theorem represents_spawned (view : ViewId) (key : DynKey) (wantValue : Bool) :
    Represents (.spawned view key : Task V) ⟨view, key, wantValue, [.enter key], none⟩ where
  view := rfl
  result := rfl
  stands := by
    refine ⟨0, .enter key none, [], [], by simp [Task.spawned], rfl,
      ⟨fun f hf => (by cases hf), fun hpc => (by rcases hpc with hpc | hpc <;> cases hpc)⟩,
      .idle rfl, fun p hp => (by cases hp), .nil, rfl, .nil, List.nodup_singleton 0, fun i hi => ?_,
      fun i b hb => ?_⟩
    · exact List.mem_singleton.mp hi ▸ Nat.zero_lt_one
    · have hb' : Function.update (fun _ : CallId => (none : Option (Call V))) 0
        (some (.enter key none)) i = some b := hb
      rw [Function.update_apply] at hb'
      split at hb'
      · next hi => exact List.mem_singleton.mpr hi
      · cases hb'

omit [DecidableEq V] in
/-- One task has changed, and the world. -/
theorem System.Represents.setTask (h : c.Represents m) {t : TaskId} {w : World V} {T : Task V}
    (hfollow : Follow t (w, T) m') (htasks : ∀ t', t' ≠ t → m'.tasks t' = m.tasks t')
    (hcount : m'.taskCount = m.taskCount) :
    System.Represents { c with world := w, tasks := Function.update c.tasks t T } m' where
  world := hfollow.1
  taskCount := hcount.trans h.taskCount
  tasks t' := by
    by_cases ht : t' = t
    · subst ht
      simpa using hfollow.2
    · simpa [Function.update_of_ne ht, htasks t' ht] using h.tasks t'

omit [DecidableEq V] in
/-- A task has been spawned. -/
theorem System.Represents.spawn (h : c.Represents m) (view : ViewId) (key : DynKey)
    (wantValue : Bool) : System.Represents
      { c with
        tasks := Function.update c.tasks c.taskCount (.spawned view key)
        taskCount := c.taskCount + 1 }
      { m with
        tasks := Function.update m.tasks m.taskCount ⟨view, key, wantValue, [.enter key], none⟩
        taskCount := m.taskCount + 1 } where
  world := h.world
  taskCount := congrArg (· + 1) h.taskCount
  tasks t := by
    simp only [h.taskCount]
    by_cases ht : t = c.taskCount
    · subst ht
      simpa using represents_spawned view key wantValue
    · simpa [Function.update_of_ne ht] using h.tasks t

/-- **A step of this machine** is one of `Access.lean`. -/
theorem System.Represents.step {l : Label V} (h : c.Represents m)
    (hl : System.single S c l = some c') :
    ∃ l' m', l.Follows l' ∧ Config.step S m l' = some m' ∧ c'.Represents m' := by
  have hworld := h.world
  cases l with
  | spawn view key =>
    simp only [System.single, System.step] at hl
    split at hl
    · next hview =>
      cases hl
      rw [← hworld] at hview
      exact ⟨_, _, .spawn view key true, if_pos hview, h.spawn view key true⟩
    · cases hl
  | step t id path =>
    simp only [System.single, System.step, ← hworld] at hl
    split at hl
    · cases hl
    · next w T hstep =>
      cases hl
      obtain ⟨m', hm', hfollow⟩ := (h.tasks t).step (fun _ => rfl) hstep
      have hts := Config.taskStep_of_step hm'
      exact ⟨_, m', .step t id path, hm', h.setTask hfollow (fun t' ht => hts.tasks_ne ht)
        hts.same_access.2.2.2⟩
  | mutate view key value =>
    simp only [System.single, System.step, ← hworld] at hl
    split at hl
    · next hview =>
      cases hl
      exact ⟨_, _, .mutate view key value, if_pos hview, rfl, h.taskCount, h.tasks⟩
    · cases hl
  | intern kind value =>
    cases hl
    exact ⟨_, _, .intern kind value, rfl, congrArg (·.intern kind value) hworld, h.taskCount,
      h.tasks⟩
  | bump view =>
    simp only [System.single, System.step, ← hworld] at hl
    split at hl
    · next hview =>
      cases hl
      exact ⟨_, _, .bump view, if_pos hview, rfl, h.taskCount, h.tasks⟩
    · cases hl
  | snapshot =>
    cases hl
    exact ⟨_, _, .snapshot, rfl, congrArg World.snapshot hworld, h.taskCount, h.tasks⟩

/-- **A step of `Access.lean`** is one of this machine. -/
theorem System.Represents.step_back {l₀ : Label V} {l' : Picante.Label V} (hf : l₀.Follows l')
    (h : c.Represents m) (hl : Config.step S m l' = some m') :
    ∃ l c', l.Follows l' ∧ System.single S c l = some c' ∧ c'.Represents m' := by
  have hworld := h.world
  cases hf with
  | spawn view key wantValue =>
    simp only [Config.step] at hl
    split at hl
    · next hview =>
      cases hl
      rw [hworld] at hview
      exact ⟨_, _, .spawn view key wantValue, if_pos hview, h.spawn view key wantValue⟩
    · cases hl
  | step t id path =>
    obtain ⟨i, w, T, hstep, hfollow⟩ :=
      (h.tasks t).step_back (fun q => .ofQuery (S.compute m.world.calls q)) (fun _ => rfl) hl
    have hts := Config.taskStep_of_step hl
    refine ⟨.step t i [], _, .step t i [], ?_, h.setTask hfollow (fun t' ht => hts.tasks_ne ht)
      hts.same_access.2.2.2⟩
    rw [hworld] at hstep
    simp only [System.single, System.step, hstep]
  | mutate view key value =>
    simp only [Config.step] at hl
    split at hl
    · next hview =>
      cases hl
      rw [hworld] at hview
      exact ⟨_, _, .mutate view key value, if_pos hview, by rw [hworld], h.taskCount, h.tasks⟩
    · cases hl
  | intern kind value =>
    cases hl
    exact ⟨_, _, .intern kind value, rfl, congrArg (·.intern kind value) hworld, h.taskCount,
      h.tasks⟩
  | bump view =>
    simp only [Config.step] at hl
    split at hl
    · next hview =>
      cases hl
      rw [hworld] at hview
      exact ⟨_, _, .bump view, if_pos hview, by rw [hworld], h.taskCount, h.tasks⟩
    · cases hl
  | snapshot =>
    cases hl
    exact ⟨_, _, .snapshot, rfl, congrArg World.snapshot hworld, h.taskCount, h.tasks⟩

/-- **Without joins the two machines have the same runs**: each run of the one, with its frame
stacks, goes through the same worlds and gives its tasks the same results as a run of the other, and
the other way round. -/
theorem joinless_runs_are_access_runs (S : Schema V) :
    (∀ ls c, Trans.Steps (System.single S) (fun _ _ _ => True) .init ls c →
      ∃ ls' m, List.Forall₂ Label.Follows ls ls' ∧
        Trans.Steps (Config.step S) (fun _ _ _ => True) .init ls' m ∧ c.Represents m) ∧
    ∀ ls' m, Trans.Steps (Config.step S) (fun _ l' _ => ∃ l : Label V, l.Follows l') .init ls' m →
      ∃ ls c, List.Forall₂ Label.Follows ls ls' ∧
        Trans.Steps (System.single S) (fun _ _ _ => True) .init ls c ∧ c.Represents m := by
  refine ⟨fun ls c hrun => ?_, fun ls' m hrun => ?_⟩
  · exact hrun.simulate represents_init fun c l c' m hrep hl _ => by
      obtain ⟨l', m', hf, hl', hrep'⟩ := hrep.step hl
      exact ⟨l', m', hf, hl', trivial, hrep'⟩
  · obtain ⟨ls, c, hls, hsteps, hrep⟩ := hrun.simulate (f := fun l' l => Label.Follows l l')
      (R := fun m c => System.Represents c m) represents_init fun m l' m' c hrep hl hok => by
        obtain ⟨l₀, hf⟩ := hok
        obtain ⟨l, c', hf, hl', hrep'⟩ := hrep.step_back hf hl
        exact ⟨l, c', hf, hl', trivial, hrep'⟩
    exact ⟨ls, c, List.Forall₂.flip hls, hsteps, hrep⟩

end runs

open Cancellation in
/-- Two inputs are set and `whole` is read, which reads `nested`. -/
def nestedRead : List (Picante.Label Nat) :=
  [.mutate 0 x (some 1), .mutate 0 y (some 1), .spawn 0 whole true] ++
    List.replicate 33 (.step 0)

open Cancellation in
/-- The task that reads `whole` gets its value from the frames as well. -/
theorem nested_read_returns :
    ∃ ls c, Trans.Steps (System.single schema) (fun _ _ _ => True) .init ls c ∧
      (c.tasks 0).result = some (.ok (2, 2)) := by
  have hrun : (Trans.run (Config.step schema) .init nestedRead).any
      (fun m => (m.tasks 0).result = some (.ok (2, 2))) := by
    decide +kernel
  obtain ⟨m, hm, hr⟩ := (Option.any_eq_true ..).mp hrun
  have hlabels : ∀ l' ∈ nestedRead, ∃ l : Label Nat, l.Follows l' := by
    intro l' hl'
    simp only [nestedRead, List.mem_append, List.mem_cons, List.not_mem_nil, or_false,
      List.mem_replicate] at hl'
    rcases hl' with (rfl | rfl | rfl) | ⟨-, rfl⟩
    · exact ⟨_, .mutate 0 x (some 1)⟩
    · exact ⟨_, .mutate 0 y (some 1)⟩
    · exact ⟨_, .spawn 0 whole true⟩
    · exact ⟨_, .step 0 0 []⟩
  have hsteps := (Trans.Steps.of_run hm).mono fun _ l' _ hl' => hlabels l' hl'
  obtain ⟨ls, c, -, hc, hrep⟩ := (joinless_runs_are_access_runs schema).2 _ m hsteps
  exact ⟨ls, c, hc, (hrep.tasks 0).result.symm.trans (of_decide_eq_true hr)⟩

end Picante.Joined

/-
# Gets that race with a change

`set` moves the revision, then marks the runtime, then stores its entry, and an access reads the
revision, its cell and the slots in separate steps; its result is published before the stale check
compares revisions.

* A get that reads the revision in the middle of a `set` computes from the old content and files
  the value under the new revision, where a later get finds it (`old_content_returned`).  As long
  as revisions are read between changes and results stored at the revision that was read, a get
  returns what its slots say when it returns (`gets_see_the_slots`).
* A leader whose revision has moved publishes what it read of the new content under the old
  revision, where a snapshot finds it (`later_content_published`).  As long as results are stored
  at the revision that was read, what is published for a revision is what the slots of that
  revision say (`published_results_are_bound`).
-/
import Picante.Isolation

namespace Picante

open ReadProg Config

variable {V : Type}

/-! ## 1. Gets on the database while it is changed -/

/-- Where only values count, nothing but a foreign record matters. -/
theorem allows_values {e : Event} (hf : e.foreign = false) : Allows .values e := by
  cases e with
  | revalidated i k shared foreign verdict =>
    have hf' : foreign = false := hf
    subst hf'
    exact ⟨nofun, nofun⟩
  | cycle i k under => exact ⟨nofun, nofun⟩
  | missing i k => rfl

section database

variable [DecidableEq V] {S : Schema V} {body : DynKey → Query V} {acc : Account}
  {ls : List (Label V)} {c c' : Config V} {t : TaskId}

/-- **A get returns what the slots hold.**  On one view, whatever the interleaving of gets with
calls of `set` and `remove`: the value a get returns is what the query evaluates to over the slots
as they are when it returns, as long as every step does what is asked of it. -/
theorem gets_see_the_slots (hdet : ∀ n q, S.compute n q = body q) (hsuits : acc.Suits body)
    (h : Trans.Steps (step S) (fun c l _ => l.OnDatabase ∧ c.Asked acc l) init ls c)
    (hask : c.Asked acc (.step t)) (hstep : step S c (.step t) = some c')
    (hlog : ∀ e ∈ c.world.log, e.foreign = false → Allows acc e) (hdone : ¬ c'.Pending t)
    {v : V} {ch : Revision} (hres : (c'.tasks t).result = some (.ok (v, ch))) :
    Uncached S body c'.world ((c'.world.inputs 0).get) (c.tasks t).key (.ok v) := by
  have hT : Spec.Fits ⟨S, body, acc⟩ := ⟨hdet, hsuits⟩
  obtain ⟨horderly, hnative⟩ := orderly_of_asked h native_init hlog
  obtain ⟨p, -, hp, -⟩ := Spec.consistent_run (T := ⟨S, body, acc⟩) hT (Spec.consistent_init _)
    Spec.upToDate_init horderly
  obtain ⟨hworld, hd, r, hr, hret⟩ := hp.returns hask hstep hdone
  rw [hres] at hr
  cases hr
  rw [hnative.views t (taskStep_of_step hstep).same_access.1] at hret
  rw [hworld]
  exact uncached_ok hd hret

end database

/-- A check of what an account of values asks of a label. -/
def Config.promptly (c : Config V) : Label V → Bool
  | .step t =>
    match (c.tasks t).stack with
    | [] => true
    | a :: _ =>
      (match a.pc with
        | .top => (c.tasks t).view ≠ 0 ∨ c.mutators.all (!·.pending)
        | _ => true) &&
      (!a.pc.writes || a.rev == c.world.rev (c.tasks t).view)
  | .mutate view _ _ | .begin view _ _ | .bump view => view = 0
  | .snapshot => c.mutators.all (!·.pending)
  | _ => true

theorem settled_of_all {c : Config V} (h : c.mutators.all (!·.pending) = true) : c.Settled := by
  intro m hm
  simpa using List.all_eq_true.mp h m hm

theorem asked_of_promptly {c : Config V} {l : Label V} (h : c.promptly l = true) :
    c.Asked .values l := by
  cases l with
  | step t =>
    intro a below hst
    simp only [promptly, hst, Bool.and_eq_true, Bool.or_eq_true, Bool.not_eq_true',
      beq_iff_eq] at h
    refine ⟨fun htop h0 => ?_, fun hw => ?_, nofun, nofun⟩
    · rw [htop] at h
      exact settled_of_all ((of_decide_eq_true h.1).resolve_left (not_not.mpr h0))
    · exact h.2.resolve_left (by rw [hw]; decide)
  | mutate view key value =>
    have hview : view = 0 := of_decide_eq_true h
    exact hview
  | «begin» view key value =>
    have hview : view = 0 := of_decide_eq_true h
    exact hview
  | bump view =>
    have hview : view = 0 := of_decide_eq_true h
    exact hview
  | snapshot => exact settled_of_all h
  | _ => trivial

namespace Races

open Cancellation (x nested schema)

/-- `set` has moved the revision, and a get reads it and computes before the entry is stored. -/
def torn : List (Label Nat) :=
  [.mutate 0 x (some 1), .begin 0 x (some 2), .advance 0, .advance 0, .spawn 0 nested true] ++
    List.replicate 16 (.step 0) ++ [.advance 0, .advance 0]

/-- A get that finds a value of its revision. -/
def later : List (Label Nat) := .spawn 0 nested true :: List.replicate 4 (.step 1)

/-- A value is cached.  A get reads the revision before a `set` starts, and looks at the cell after
it has returned. -/
def overlapping : List (Label Nat) :=
  [.mutate 0 x (some 1), .spawn 0 nested true] ++ List.replicate 16 (.step 0) ++
    [.spawn 0 nested true, .step 1, .begin 0 x (some 2), .advance 0, .advance 0, .step 1,
      .advance 0, .advance 0] ++ List.replicate 19 (.step 1)

theorem overlapping_on_database : ∀ l ∈ overlapping, l.OnDatabase := by
  intro l hl
  simp only [overlapping, List.mem_append, List.mem_cons, List.mem_replicate, List.not_mem_nil,
    or_false] at hl
  rcases hl with (((rfl | rfl) | ⟨-, rfl⟩) | (rfl | rfl | rfl | rfl | rfl | rfl | rfl | rfl)) |
    ⟨-, rfl⟩ <;> first | rfl | trivial

end Races

open Races Cancellation in
/-- **A get returns the content from before the `set`.**  The get in the middle of the `set` files
`1` under the new revision; a get that starts when `set` has returned finds it, though the slot
holds `2`. -/
theorem old_content_returned :
    ¬ ∀ (ls₁ ls₂ : List (Label Nat)) (m c : Config Nat) (v : Nat) (ch : Revision),
      Trans.run (step schema) init ls₁ = some m →
        (∀ u ∈ m.mutators, ∃ r, u.pc = .done r) →
          (∀ l ∈ ls₂, l = .spawn 0 nested true ∨ l = .step m.taskCount) →
            Trans.run (step schema) m ls₂ = some c →
              (c.tasks m.taskCount).result = some (.ok (v, ch)) →
                Uncached schema body c.world ((c.world.inputs 0).get) nested (.ok v) := by
  intro h
  have hrun : (Trans.run (step schema) init torn).any (fun m =>
      m.taskCount = 1 ∧ m.mutators.map (·.pc) = [.done 2] ∧
        (Trans.run (step schema) m later).any fun c =>
          (c.tasks 1).result = some (.ok (1, 2)) ∧
            evaluate (slotsEnv schema body c.world ((c.world.inputs 0).get)) (faults schema) 3 []
              nested = some (.ok 2)) := by decide +kernel
  obtain ⟨m, hm, hsecond⟩ := (Option.any_eq_true ..).mp hrun
  obtain ⟨hcount, hdone, hsecond⟩ := of_decide_eq_true hsecond
  obtain ⟨c, hc, hlast⟩ := (Option.any_eq_true ..).mp hsecond
  obtain ⟨hres, heval⟩ := of_decide_eq_true hlast
  have hold := h torn later m c 1 2 hm (fun u hu => ?_) (fun l hl => ?_) hc (by rw [hcount, hres])
  · obtain ⟨fuel, hv⟩ := hold
    cases evaluate_functional hv heval
  · have hpc : u.pc ∈ m.mutators.map (·.pc) := List.mem_map_of_mem hu
    rw [hdone] at hpc
    exact ⟨2, List.mem_singleton.mp hpc⟩
  · rw [hcount]
    rcases List.mem_cons.mp hl with rfl | hl
    · exact .inl rfl
    · exact .inr (List.eq_of_mem_replicate hl)

open Races Cancellation in
/-- A get that overlaps with a `set` finds the cached value, and the revision moved: it starts
again, finds the check of the record failing, and returns the new content. -/
theorem new_content_seen :
    ∃ c c', Trans.Steps (step schema) (fun c l _ => l.OnDatabase ∧ c.Asked .values l) init
        overlapping c ∧ (c.tasks 0).result = some (.ok (1, 1)) ∧
      step schema c (.step 1) = some c' ∧ (c'.tasks 1).result = some (.ok (2, 2)) ∧
        Uncached schema body c'.world ((c'.world.inputs 0).get) (c.tasks 1).key (.ok 2) := by
  have hrun : (Trans.run (fun c l => if c.promptly l then step schema c l else none) init
      overlapping).any (fun c => c.promptly (.step 1) ∧ (c.tasks 0).result = some (.ok (1, 1)) ∧
        (step schema c (.step 1)).any fun c' =>
          ¬ c'.Pending 1 ∧ (c'.tasks 1).result = some (.ok (2, 2))) := by decide +kernel
  obtain ⟨c, hc, hlast⟩ := (Option.any_eq_true ..).mp hrun
  obtain ⟨hprompt, hcached, hlast⟩ := of_decide_eq_true hlast
  obtain ⟨c', hc', hdone⟩ := (Option.any_eq_true ..).mp hlast
  obtain ⟨hdone, hres⟩ := of_decide_eq_true hdone
  have hsteps : Trans.Steps (step schema) (fun c l _ => l.OnDatabase ∧ c.Asked .values l) init
      overlapping c :=
    (Trans.Steps.of_checked_run _ hc).mono fun m l _ ⟨hmem, hcheck⟩ =>
      ⟨overlapping_on_database l hmem, asked_of_promptly hcheck⟩
  exact ⟨c, c', hsteps, hcached, hc', hres,
    gets_see_the_slots (fun _ _ => rfl) (fun _ => body_propagates) hsteps
      (asked_of_promptly hprompt) hc' (fun e _ hf => allows_values hf) hdone hres⟩

/-! ## 2. What is published for a revision -/

section family

variable [DecidableEq V] {S : Schema V} {body : DynKey → Query V} {acc : Account}
  {ls ls' : List (Label V)} {m c : Config V}

/-- What is published for revision `r` is what the queries evaluate to over `content`: the
in-flight entries of that revision, the shared records verified at it, and the values returned on
views that are at it. -/
structure BoundTo (S : Schema V) (body : DynKey → Query V) (acc : Account) (c : Config V)
    (r : Revision) (content : Contents V) : Prop where
  entries : ∀ e v deps ch, (c.world.registry.entries e).state = .done v deps ch →
    (c.world.registry.entries e).key.revision = r →
      S.sectionType (c.world.registry.entries e).key.query.kind = .derived →
        Uncached S body c.world content (c.world.registry.entries e).key.query (.ok v)
  shared : ∀ i q F, c.world.shared (c.world.scope i) q = some F → F.verifiedAt = r →
    S.sectionType q.kind = .derived → Uncached S body c.world content q (.ok F.value)
  returned : ∀ t c' v ch, c.Asked acc (.step t) → step S c (.step t) = some c' →
    ¬ c'.Pending t → (c'.tasks t).result = some (.ok (v, ch)) →
      c.world.rev (c.tasks t).view = r →
        Uncached S body c.world content (c.tasks t).key (.ok v)

/-- **What is published is bound to its revision.**  Whatever the interleaving of accesses on the
database and its snapshots with changes of the database: what is published for a revision is what
the slots of the database said at that revision, as long as every step does what is asked of it. -/
theorem published_results_are_bound (hdet : ∀ n q, S.compute n q = body q)
    (hsuits : acc.Suits body) (h : Trans.Steps (step S) (Orderly acc) init ls m)
    (hsettled : m.Settled) (h' : Trans.Steps (step S) (Orderly acc) m ls' c) :
    BoundTo S body acc c (m.world.rev 0) ((m.world.inputs 0).get) := by
  have hT : Spec.Fits ⟨S, body, acc⟩ := ⟨hdet, hsuits⟩
  obtain ⟨p, -, hp, hup⟩ := Spec.consistent_run (T := ⟨S, body, acc⟩) hT
    (Spec.consistent_init _) Spec.upToDate_init h
  have hr : m.world.rev 0 ≤ p.settled := Nat.le_of_eq (hup hsettled).symm
  obtain ⟨p', hext, hp', -⟩ := Spec.consistent_run hT hp hup h'
  -- the past remembers what the slots held
  have hcontent : p'.content (m.world.rev 0) = (m.world.inputs 0).get :=
    (hext.content _ hr).trans (funext (hp.world.content hr))
  have uncached : ∀ {q v}, S.sectionType q.kind = .derived →
      Spec.Right ⟨S, body, acc⟩ p' c.world (m.world.rev 0) q (.ok (some v)) →
        Uncached S body c.world ((m.world.inputs 0).get) q (.ok v) := by
    intro q v hq hright
    rw [← hcontent]
    exact uncached_ok hq hright
  constructor
  · intro e v deps ch hs hrev hq
    have hok := hp'.world.entries e
    simp only [Spec.EntryOk, hs] at hok
    rw [hrev] at hok
    exact uncached hq hok.2.1.right
  · intro i q F hF hver hq
    rw [hp'.world.scope] at hF
    have hright := (hp'.world.shared q F hF).sound.right
    rw [hver] at hright
    exact uncached hq hright
  · intro t c' v ch hask hstep hdone hres hrev
    obtain ⟨-, hd, r, hr', hret⟩ := hp'.returns hask hstep hdone
    rw [hres] at hr'
    cases hr'
    -- the slots of a view are those of its revision
    have hslots : (c.world.inputs (c.tasks t).view).get = (m.world.inputs 0).get := by
      rw [← hcontent, ← hrev]
      exact (funext (hp'.world.content (hrev ▸ Nat.le_trans hr hext.settled))).symm
    rw [← hslots]
    exact uncached_ok hd hret

end family

namespace Races

open Cancellation (x nested schema)

/-- A database with `x = 1`, and a snapshot of it. -/
def shared : List (Label Nat) := [.mutate 0 x (some 1), .snapshot]

/-- A get starts to compute at revision 1, then `x` is changed, and the get goes on; a get on the
snapshot follows, up to its last step. -/
def overtaken : List (Label Nat) :=
  .spawn 0 nested true :: List.replicate 6 (.step 0) ++ [.mutate 0 x (some 2)] ++
    List.replicate 6 (.step 0) ++ .spawn 1 nested true :: List.replicate 9 (.step 1)

/-- A get computes at revision 1, and one on the snapshot waits for it; then `x` is changed, the
first one reads the new content and is dropped, and the other one computes. -/
def undisturbed : List (Label Nat) :=
  .spawn 0 nested true :: List.replicate 6 (.step 0) ++ .spawn 1 nested true ::
    List.replicate 9 (.step 1) ++ [.mutate 0 x (some 2), .step 0, .drop 0] ++
      List.replicate 18 (.step 1)

end Races

open Races Cancellation in
/-- **A snapshot returns content from after its revision.**  The get on the database publishes for
revision 1 what it read at revision 2, and the snapshot, which is at revision 1, adopts it. -/
theorem later_content_published :
    ¬ ∀ (ls₁ ls₂ : List (Label Nat)) (m c : Config Nat),
      Trans.run (step schema) init ls₁ = some m → m.Settled →
        Trans.run (step schema) m ls₂ = some c →
          BoundTo schema body .values c (m.world.rev 0) ((m.world.inputs 0).get) := by
  intro h
  have hrun : (Trans.run (step schema) init shared).any (fun m =>
      m.mutators.all (!·.pending) ∧ m.world.rev 0 = 1 ∧
        (Trans.run (step schema) m overtaken).any fun c =>
          c.promptly (.step 1) ∧ (c.tasks 1).view = 1 ∧ (c.tasks 1).key = nested ∧
            c.world.rev 1 = 1 ∧
            (step schema c (.step 1)).any (fun c' =>
              ¬ c'.Pending 1 ∧ (c'.tasks 1).result = some (.ok (2, 1))) ∧
            evaluate (slotsEnv schema body c.world ((m.world.inputs 0).get)) (faults schema) 3 []
              nested = some (.ok 1)) := by decide +kernel
  obtain ⟨m, hm, hrest⟩ := (Option.any_eq_true ..).mp hrun
  obtain ⟨hsettled, hrev, hrest⟩ := of_decide_eq_true hrest
  obtain ⟨c, hc, hrest⟩ := (Option.any_eq_true ..).mp hrest
  obtain ⟨hprompt, hview, hkey, hrev', hrest, heval⟩ := of_decide_eq_true hrest
  obtain ⟨c', hc', hrest⟩ := (Option.any_eq_true ..).mp hrest
  obtain ⟨hdone, hres⟩ := of_decide_eq_true hrest
  have hbound := h shared overtaken m c hm (settled_of_all hsettled) hc
  obtain ⟨fuel, hv⟩ := hbound.returned 1 c' 2 1 (asked_of_promptly hprompt) hc' hdone hres
    (by rw [hview, hrev, hrev'])
  rw [hkey] at hv
  cases evaluate_functional hv heval

open Races Cancellation in
/-- Results that are stored in time are bound to their revision, though `x` is changed while they
are computed: the get on the snapshot returns what the slots were. -/
theorem undisturbed_result_is_bound :
    ∃ m c c', Trans.Steps (step schema) (Orderly .values) init shared m ∧
      Trans.Steps (step schema) (Orderly .values) m undisturbed c ∧
        BoundTo schema body .values c (m.world.rev 0) ((m.world.inputs 0).get) ∧
          c.world.rev 0 = 2 ∧ step schema c (.step 1) = some c' ∧
            (c'.tasks 1).result = some (.ok (1, 1)) ∧
              Uncached schema body c.world ((m.world.inputs 0).get) (c.tasks 1).key (.ok 1) := by
  have hrun : (Trans.run (fun c l => if c.promptly l then step schema c l else none) init
      shared).any (fun m => m.mutators.all (!·.pending) ∧ (∀ e ∈ m.world.log, e.foreign = false) ∧
        (Trans.run (fun c l => if c.promptly l then step schema c l else none) m
          undisturbed).any fun c => (∀ e ∈ c.world.log, e.foreign = false) ∧
            c.promptly (.step 1) ∧ c.world.rev 0 = 2 ∧
              c.world.rev (c.tasks 1).view = m.world.rev 0 ∧
                (step schema c (.step 1)).any fun c' =>
                  ¬ c'.Pending 1 ∧ (c'.tasks 1).result = some (.ok (1, 1))) := by decide +kernel
  obtain ⟨m, hm, hrest⟩ := (Option.any_eq_true ..).mp hrun
  obtain ⟨hsettled, hlog, hrest⟩ := of_decide_eq_true hrest
  obtain ⟨c, hc, hrest⟩ := (Option.any_eq_true ..).mp hrest
  obtain ⟨hlog', hprompt, hmoved, hrev, hrest⟩ := of_decide_eq_true hrest
  obtain ⟨c', hc', hrest⟩ := (Option.any_eq_true ..).mp hrest
  obtain ⟨hdone, hres⟩ := of_decide_eq_true hrest
  have orderly : ∀ {ls : List (Label Nat)} {c₁ c₂ : Config Nat},
      Trans.run (fun c l => if c.promptly l then step schema c l else none) c₁ ls = some c₂ →
        (∀ e ∈ c₂.world.log, e.foreign = false) →
          Trans.Steps (step schema) (Orderly .values) c₁ ls c₂ := by
    intro ls c₁ c₂ hls hl
    refine orderly_of_log ((Trans.Steps.of_checked_run _ hls).mono fun _ _ _ hok =>
      asked_of_promptly hok.2) fun e he => allows_values (hl e he)
  have hbound := published_results_are_bound (fun _ _ => rfl) (fun _ => body_propagates)
    (orderly hm hlog) (settled_of_all hsettled) (orderly hc hlog')
  exact ⟨m, c, c', orderly hm hlog, orderly hc hlog', hbound, hmoved, hc', hres,
    hbound.returned 1 c' 1 1 (asked_of_promptly hprompt) hc' hdone hres hrev⟩

end Picante

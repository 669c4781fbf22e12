/-
# What a list of writes leaves

A map that starts empty is written in the course of a run, and the writes are kept in a list, in
their order: `latest ws` is the map, every key at its last write.  Leaving out writes (`filter`)
leaves the map of those that remain.

* `latest_append` -- one more write.
* `mem_of_latest` -- what a key holds was written to it.
* `latest_filter_of_forall` -- leaving out writes to other keys.
* `latest_after` -- after a write to a key, the key holds what it wrote or what a later one did.
* `write_eq_self_iff` -- writes change nothing when every key holds its last write already.
-/
import Picante.Tables.Basic
import Mathlib.Data.List.Induction

namespace Tables

variable {K A : Type} [DecidableEq K] {ws : List (K × A)} {k : K} {a : A}

/-- What the writes leave of a map that was empty. -/
def latest (ws : List (K × A)) : K → Option A :=
  write (fun _ => none) (ws.map fun w => (w.1, some w.2))

theorem latest_append (ws : List (K × A)) (w : K × A) :
    latest (ws ++ [w]) = Function.update (latest ws) w.1 (some w.2) := by
  unfold latest
  rw [List.map_append, write_append]
  rfl

/-- What a key holds was written to it. -/
theorem mem_of_latest (h : latest ws k = some a) : (k, a) ∈ ws := by
  induction ws using List.reverseRecOn with
  | nil => cases h
  | append_singleton ws w ih =>
    rw [latest_append, Function.update_apply] at h
    split at h
    · next hk =>
      cases h
      rw [hk]
      exact List.mem_append_right _ (List.mem_singleton.mpr rfl)
    · exact List.mem_append_left _ (ih h)

/-- What is written, changed in the same way everywhere. -/
theorem latest_map {B : Type} (f : A → B) (ws : List (K × A)) (k : K) :
    latest (ws.map fun w => (w.1, f w.2)) k = (latest ws k).map f := by
  induction ws using List.reverseRecOn with
  | nil => rfl
  | append_singleton ws w ih =>
    rw [List.map_append, List.map_singleton, latest_append, latest_append, Function.update_apply,
      Function.update_apply]
    split
    · rfl
    · exact ih

/-- Writing to a map that holds something already. -/
theorem write_eq_getD (m : K → A) (ws : List (K × A)) (k : K) :
    write m ws k = (latest ws k).getD (m k) := by
  induction ws using List.reverseRecOn with
  | nil => rfl
  | append_singleton ws w ih =>
    rw [write_append, write_cons, write_nil, latest_append, Function.update_apply,
      Function.update_apply]
    split
    · rfl
    · exact ih

/-- **Writes change nothing exactly when every key holds its last write already.** -/
theorem write_eq_self_iff {m : K → A} : write m ws = m ↔ ∀ k a, latest ws k = some a → m k = a := by
  constructor
  · intro h k a ha
    have hk := congrFun h k
    rw [write_eq_getD, ha] at hk
    exact hk.symm
  · intro h
    funext k
    rw [write_eq_getD]
    cases hk : latest ws k with
    | none => rfl
    | some a => exact (h k a hk).symm

/-- Writing to a map some of whose keys hold nothing. -/
theorem write_some_eq_or (m : K → Option A) (ws : List (K × A)) (k : K) :
    write m (ws.map fun w => (w.1, some w.2)) k = (latest ws k).or (m k) := by
  rw [write_eq_getD, latest_map]
  cases latest ws k <;> rfl

theorem write_some_eq_self_iff {m : K → Option A} :
    write m (ws.map fun w => (w.1, some w.2)) = m ↔
      ∀ k a, latest ws k = some a → m k = some a := by
  rw [write_eq_self_iff]
  constructor
  · intro h k a ha
    refine h k (some a) ?_
    rw [latest_map, ha]
    rfl
  · intro h k a ha
    rw [latest_map, Option.map_eq_some_iff] at ha
    obtain ⟨a', ha', rfl⟩ := ha
    exact h k a' ha'

/-- **A write lasts until the next one to its key.** -/
theorem latest_after (pre post : List (K × A)) (k : K) (a : A) :
    ∃ a', latest (pre ++ (k, a) :: post) k = some a' ∧ (k, a') ∈ (k, a) :: post := by
  induction post using List.reverseRecOn with
  | nil =>
    refine ⟨a, ?_, List.mem_singleton.mpr rfl⟩
    rw [latest_append]
    exact Function.update_self ..
  | append_singleton post w ih =>
    rw [← List.cons_append, ← List.append_assoc, latest_append, Function.update_apply]
    obtain ⟨a', ha', hmem⟩ := ih
    split
    · next hk =>
      subst hk
      exact ⟨w.2, rfl, List.mem_append_right _ (List.mem_singleton.mpr rfl)⟩
    · exact ⟨a', ha', List.mem_append_left _ hmem⟩

/-- A key that is not written holds nothing. -/
theorem latest_eq_none_iff : latest ws k = none ↔ k ∉ ws.map Prod.fst := by
  constructor
  · intro h hmem
    obtain ⟨w, hw, rfl⟩ := List.mem_map.mp hmem
    obtain ⟨pre, post, rfl⟩ := List.append_of_mem hw
    obtain ⟨a', ha', -⟩ := latest_after pre post w.1 w.2
    rw [ha'] at h
    cases h
  · intro h
    cases hk : latest ws k with
    | none => rfl
    | some a => exact absurd (List.mem_map_of_mem (mem_of_latest hk)) h

/-- A key none of whose writes is left out. -/
theorem latest_filter_of_forall {p : K × A → Bool} (h : ∀ w ∈ ws, w.1 = k → p w = true) :
    latest (ws.filter p) k = latest ws k := by
  induction ws using List.reverseRecOn with
  | nil => rfl
  | append_singleton ws w ih =>
    have hws := ih fun w' hw' => h w' (List.mem_append_left _ hw')
    rw [List.filter_append, List.filter_cons, List.filter_nil, latest_append]
    rcases eq_or_ne w.1 k with rfl | hk
    · rw [if_pos (h w (List.mem_append_right _ (List.mem_singleton.mpr rfl)) rfl), latest_append]
      rw [Function.update_self, Function.update_self]
    · rw [Function.update_of_ne hk.symm]
      split
      · rw [latest_append, Function.update_of_ne hk.symm]
        exact hws
      · rw [List.append_nil]
        exact hws

/-- A key that holds a write that is not left out still does. -/
theorem latest_filter {p : K × A → Bool} (h : latest ws k = some a) (hp : p (k, a) = true) :
    latest (ws.filter p) k = some a := by
  induction ws using List.reverseRecOn with
  | nil => cases h
  | append_singleton ws w ih =>
    rw [latest_append, Function.update_apply] at h
    rw [List.filter_append]
    split at h
    · next hk =>
      cases h
      subst hk
      rw [List.filter_cons_of_pos hp, List.filter_nil, latest_append]
      exact Function.update_self ..
    · next hk =>
      rw [List.filter_cons]
      split
      · rw [List.filter_nil, latest_append, Function.update_of_ne hk]
        exact ih h
      · rw [List.filter_nil, List.append_nil]
        exact ih h

end Tables

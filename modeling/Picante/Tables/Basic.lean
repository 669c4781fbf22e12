/-
# Maps that are listed and written back

A map `K → Option A` is saved by listing its entries in some order, and rebuilt by writing entries
one after another.

* `entries keys m` -- the entries of `m` at the listed keys, `mem_entries` and `nodup_entries`.
* `write m ws` -- the writes `ws` carried out in order; where all writes to a key agree, their value
  is what it holds then (`write_of_agree`).
* `write_entries` -- writing back what was listed restores the map, `write_entries_elsewhere` and
  nothing else.
* `mapM_eq_ok_iff` -- a list is encoded entry by entry, or not at all.
* `entries_cut` -- what is left of the encoded entries is encoded from the entries of a smaller map.
-/
import Mathlib.Logic.Function.Basic
import Mathlib.Order.Basic
import Mathlib.Data.List.Basic
import Mathlib.Data.List.Nodup
import Mathlib.Data.List.Forall2
import Mathlib.Data.List.Perm.Subperm

namespace Tables

variable {K A B E : Type}

/-! ## 1. Listing -/

/-- The entries of a map at the given keys, in their order. -/
def entries (keys : List K) (m : K → Option A) : List (K × A) :=
  keys.filterMap fun k => (m k).map (k, ·)

variable {keys : List K} {m : K → Option A} {k : K} {a : A}

theorem mem_entries : (k, a) ∈ entries keys m ↔ k ∈ keys ∧ m k = some a := by
  simp only [entries, List.mem_filterMap, Option.map_eq_some_iff, Prod.mk.injEq]
  constructor
  · rintro ⟨k', hk, a', ha, rfl, rfl⟩
    exact ⟨hk, ha⟩
  · rintro ⟨hk, ha⟩
    exact ⟨k, hk, a, ha, rfl, rfl⟩

/-- The keys of the entries come in the order of the list. -/
theorem keys_entries_sublist (keys : List K) (m : K → Option A) :
    ((entries keys m).map Prod.fst).Sublist keys := by
  induction keys with
  | nil => exact .slnil
  | cons k keys ih =>
    cases hk : m k with
    | none => simpa [entries, hk] using ih.cons k
    | some a => simpa [entries, hk] using ih

theorem nodup_entries (h : keys.Nodup) : ((entries keys m).map Prod.fst).Nodup :=
  (keys_entries_sublist keys m).nodup h

/-! ## 2. Writing -/

section write

variable [DecidableEq K] {m' : K → B} {ws ws' : List (K × B)} {b : B}

/-- Carries out the writes in order. -/
def write (m : K → B) (ws : List (K × B)) : K → B :=
  ws.foldl (fun m w => Function.update m w.1 w.2) m

@[simp] theorem write_nil (m : K → B) : write m [] = m := rfl

@[simp] theorem write_cons (m : K → B) (w : K × B) (ws : List (K × B)) :
    write m (w :: ws) = write (Function.update m w.1 w.2) ws := rfl

theorem write_append (m : K → B) (ws ws' : List (K × B)) :
    write m (ws ++ ws') = write (write m ws) ws' := List.foldl_append ..

/-- A key that is not written keeps its value. -/
theorem write_of_not_mem (h : k ∉ ws.map Prod.fst) : write m' ws k = m' k := by
  induction ws generalizing m' with
  | nil => rfl
  | cons w ws ih =>
    rw [List.map_cons, List.mem_cons, not_or] at h
    rw [write_cons, ih h.2, Function.update_of_ne h.1]

/-- What a key holds after the writes depends on what it held before, and nothing else. -/
theorem write_congr {m₁ m₂ : K → B} (h : m₁ k = m₂ k) (ws : List (K × B)) :
    write m₁ ws k = write m₂ ws k := by
  induction ws generalizing m₁ m₂ with
  | nil => exact h
  | cons w ws ih =>
    rw [write_cons, write_cons]
    refine ih ?_
    rcases eq_or_ne k w.1 with rfl | hk
    · rw [Function.update_self, Function.update_self]
    · rw [Function.update_of_ne hk, Function.update_of_ne hk, h]

/-- What is written to a key, if it is always the same. -/
theorem write_of_agree (h : ∀ b', (k, b') ∈ ws → b' = b) (hmem : k ∈ ws.map Prod.fst) :
    write m' ws k = b := by
  induction ws generalizing m' with
  | nil => cases hmem
  | cons w ws ih =>
    rw [write_cons]
    by_cases hk : k ∈ ws.map Prod.fst
    · exact ih (fun b' hb' => h b' (List.mem_cons_of_mem _ hb')) hk
    · have hw : k = w.1 := (List.mem_cons.mp hmem).resolve_right hk
      subst hw
      rw [write_of_not_mem hk, Function.update_self]
      exact h w.2 (List.mem_cons_self ..)

/-- Where no key is written twice, every write lasts. -/
theorem write_of_mem (hnd : (ws.map Prod.fst).Nodup) (h : (k, b) ∈ ws) :
    write m' ws k = b := by
  refine write_of_agree (fun b' hb' => ?_) (List.mem_map.mpr ⟨(k, b), h, rfl⟩)
  exact (Prod.mk.inj (List.inj_on_of_nodup_map hnd hb' h rfl)).2

end write

/-! ## 3. Writing back -/

section restore

variable {L : Type} [DecidableEq L] {j : K → L}

omit [DecidableEq L] in
/-- The keys that are written back. -/
theorem keys_writes (f : A → B) (es : List (K × A)) :
    (es.map fun e => (j e.1, f e.2)).map Prod.fst = (es.map Prod.fst).map j := by
  rw [List.map_map, List.map_map]
  rfl

/-- **A map is restored by writing back what was listed**, in place of `blank` where nothing was:
the entry of `k` is written at `j k`, and `f` makes of it what is written. -/
theorem write_entries (hj : Function.Injective j) (hnd : keys.Nodup)
    (hall : ∀ k a, m k = some a → k ∈ keys) (f : A → B) (blank : L → B) (k : K) :
    write blank ((entries keys m).map fun e => (j e.1, f e.2)) (j k) =
      ((m k).map f).getD (blank (j k)) := by
  cases hk : m k with
  | none =>
    refine write_of_not_mem ?_
    rw [keys_writes]
    intro hmem
    obtain ⟨k', hk', heq⟩ := List.mem_map.mp hmem
    obtain rfl := hj heq
    obtain ⟨⟨k'', a⟩, he, rfl⟩ := List.mem_map.mp hk'
    rw [(mem_entries.mp he).2] at hk
    cases hk
  | some a =>
    refine write_of_mem ?_ ?_
    · rw [keys_writes]
      exact (nodup_entries hnd).map hj
    · exact List.mem_map.mpr ⟨(k, a), mem_entries.mpr ⟨hall k a hk, hk⟩, rfl⟩

/-- Nothing is written elsewhere. -/
theorem write_entries_elsewhere (f : A → B) (blank : L → B) (es : List (K × A)) {l : L}
    (hl : ∀ k, j k ≠ l) : write blank (es.map fun e => (j e.1, f e.2)) l = blank l := by
  refine write_of_not_mem ?_
  rw [keys_writes]
  intro hmem
  obtain ⟨k, -, heq⟩ := List.mem_map.mp hmem
  exact hl k heq

end restore

/-- **A list is mapped successfully when every element is.** -/
theorem mapM_eq_ok_iff {f : A → Except E B} {xs : List A} {ys : List B} :
    xs.mapM f = .ok ys ↔ List.Forall₂ (fun x y => f x = .ok y) xs ys := by
  induction xs generalizing ys with
  | nil =>
    rw [List.mapM_nil, List.forall₂_nil_left_iff]
    exact ⟨fun h => (Except.ok.inj h).symm, fun h => h ▸ rfl⟩
  | cons x xs ih =>
    rw [List.mapM_cons]
    cases hx : f x with
    | error e =>
      refine iff_of_false nofun ?_
      rintro (_ | ⟨hy, -⟩)
      rw [hx] at hy
      cases hy
    | ok y =>
      cases hxs : xs.mapM f with
      | error e =>
        refine iff_of_false nofun ?_
        rintro (_ | ⟨-, hrest⟩)
        rw [ih.mpr hrest] at hxs
        cases hxs
      | ok ys' =>
        have hys := ih.mp hxs
        constructor
        · intro h
          obtain rfl : y :: ys' = ys := Except.ok.inj h
          exact .cons hx hys
        · rintro (_ | ⟨hy, hrest⟩)
          rw [hx] at hy
          cases hy
          have hok := ih.mpr hrest
          rw [hxs] at hok
          cases hok
          rfl

/-- What is on the left has a counterpart on the right. -/
theorem exists_of_forall₂ {R : A → B → Prop} {xs : List A} {ys : List B} {x : A}
    (h : List.Forall₂ R xs ys) (hx : x ∈ xs) : ∃ y ∈ ys, R x y := by
  induction h with
  | nil => cases hx
  | cons hr _ ih =>
    rcases List.mem_cons.mp hx with rfl | hx
    · exact ⟨_, List.mem_cons_self .., hr⟩
    · obtain ⟨y, hy, hr⟩ := ih hx
      exact ⟨y, List.mem_cons_of_mem _ hy, hr⟩

/-! ## 4. What is left of a list -/

section cut

variable {R : A → B → Prop}

/-- What corresponds to a sublist is a sublist. -/
theorem exists_sublist {es : List A} {bs bs' : List B} (h : List.Forall₂ R es bs)
    (hsub : bs'.Sublist bs) : ∃ es', es'.Sublist es ∧ List.Forall₂ R es' bs' := by
  induction hsub generalizing es with
  | slnil => exact ⟨[], List.nil_sublist _, .nil⟩
  | cons b _ ih =>
    cases h with
    | cons _ hrest =>
      obtain ⟨es', hes, hr⟩ := ih hrest
      exact ⟨es', hes.cons _, hr⟩
  | cons_cons b _ ih =>
    cases h with
    | cons hb hrest =>
      obtain ⟨es', hes, hr⟩ := ih hrest
      exact ⟨_, hes.cons_cons _, .cons hb hr⟩

/-- And what corresponds to some of the elements, in any order. -/
theorem exists_subperm {es : List A} {bs bs' : List B} (h : List.Forall₂ R es bs)
    (hsub : bs'.Subperm bs) : ∃ es', es'.Subperm es ∧ List.Forall₂ R es' bs' := by
  obtain ⟨bs₀, hperm, hbs⟩ := hsub
  obtain ⟨es₀, hes, hr⟩ := exists_sublist h hbs
  have hcomp : Relation.Comp (List.Forall₂ R) List.Perm es₀ bs' := ⟨bs₀, hr, hperm⟩
  rw [List.forall₂_comp_perm_eq_perm_comp_forall₂] at hcomp
  obtain ⟨es', hes', hr'⟩ := hcomp
  exact ⟨es', ⟨es₀, hes', hes⟩, hr'⟩

/-- Listing a map at the keys of some of its entries gives these entries. -/
theorem entries_keys {es : List (K × A)} (h : ∀ e ∈ es, m e.1 = some e.2) :
    entries (es.map Prod.fst) m = es := by
  induction es with
  | nil => rfl
  | cons e es ih =>
    obtain ⟨he, hes⟩ := List.forall_mem_cons.mp h
    have hrest := ih hes
    unfold entries at hrest ⊢
    rw [List.map_cons, List.filterMap_cons_some (b := e) (by rw [he]; rfl), hrest]

/-- **What is left of the encoded entries of a map** is encoded from its entries at fewer keys. -/
theorem entries_cut {encode : K × A → Except E B} {bs bs' : List B} (hnd : keys.Nodup)
    (h : (entries keys m).mapM encode = .ok bs) (hsub : bs'.Subperm bs) :
    ∃ keys' : List K, keys'.Nodup ∧ ∀ m' : K → Option A, (∀ k ∈ keys', m' k = m k) →
      (entries keys' m').mapM encode = .ok bs' := by
  obtain ⟨es, hes, hr⟩ := exists_subperm (mapM_eq_ok_iff.mp h) hsub
  refine ⟨es.map Prod.fst, ?_, fun m' hm' => ?_⟩
  · obtain ⟨es₀, hperm, hsub⟩ := hes
    exact (hperm.map _).nodup ((hsub.map _).nodup (nodup_entries hnd))
  · rw [entries_keys]
    · exact mapM_eq_ok_iff.mpr hr
    · intro e he
      rw [hm' e.1 (List.mem_map_of_mem he)]
      exact (mem_entries.mp (hes.subset he)).2

end cut

end Tables

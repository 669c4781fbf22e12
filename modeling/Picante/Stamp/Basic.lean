/-
# Honest change stamps

A key is answered at growing times; its `history` says what was recorded at each time.  A
*stamp* is an answer with the time of its last change as somebody claims it.  The stamp is
honest before `r` if every answer recorded at or after the claimed time, and before `r`, is the
stamped one.

A record of a program keeps the observations it made at some time `s`.  To check the record
later, nothing is evaluated again: the stamp of each observed key is compared with the stamp of
the record.

* `Honest.checked` -- an observation whose key has a stamp not above `c ≤ s` still stands.
-/
import Picante.ReadProg.Basic

namespace Stamp

open ReadProg

variable {A : Type}

/-! ## 1. Stamps of one key -/

/-- What was recorded for a key at each time. -/
abbrev History (A : Type) := Nat → Option A

/-- The answer `a`, claimed to be unchanged since `c`, was recorded whenever anything was. -/
def Honest (h : History A) (r : Nat) (a : A) (c : Nat) : Prop :=
  ∀ s, c ≤ s → s < r → ∀ b, h s = some b → b = a

variable {h h' : History A} {r r' c c' s : Nat} {a b : A}

/-- A change claimed for now is never contradicted. -/
theorem honest_now (h : History A) (hc : r ≤ c) (a : A) : Honest h r a c :=
  fun s hs hr => absurd hr (by omega)

theorem Honest.mono (hh : Honest h r a c) (hr : r' ≤ r) (hc : c ≤ c') : Honest h r' a c' :=
  fun s hs hsr => hh s (by omega) (by omega)

/-- The next time is added to the past. -/
theorem Honest.succ (hh : Honest h r a c) (hr : ∀ b, h r = some b → b = a) :
    Honest h (r + 1) a c := by
  intro s hs hsr b hb
  rcases Nat.lt_or_ge s r with hlt | hge
  · exact hh s hs hlt b hb
  · obtain rfl : s = r := by omega
    exact hr b hb

/-- Only the past before `r` matters. -/
theorem Honest.congr (hh : Honest h r a c) (heq : ∀ s, s < r → h' s = h s) :
    Honest h' r a c :=
  fun s hs hsr b hb => hh s hs hsr b (heq s hsr ▸ hb)

/-- **An observation made at `s` stands**: its key's stamp now is not above `c`, and `c` is not
above `s`. -/
theorem Honest.checked (hh : Honest h r a c') (hc : c' ≤ c) (hs : c ≤ s) (hr : s < r)
    (hb : h s = some b) : a = b :=
  (hh s (by omega) hr b hb).symm

/-! ## 2. Records of programs -/

variable {D E X Y : Type}

/-- What was recorded for every key. -/
abbrev Told (D E X : Type) := D → History (Except E X)

/-- All the observations were recorded at time `s`. -/
def Recorded (told : Told D E X) (s : Nat) (obs : Obs D E X) : Prop :=
  ∀ da ∈ obs, told da.1 s = some da.2

/-- The program ends with `out` on answers recorded at time `s`. -/
def Derives (told : Told D E X) (s : Nat) (p : Prog D E X Y) (out : Except E Y) : Prop :=
  ∃ obs, Follows p obs (.done out) ∧ Recorded told s obs

/-- **Programs that are told the same end in the same way.** -/
theorem follows_agree {p : Prog D E X Y} {obs obs' : Obs D E X} {out out' : Except E Y}
    (hf : Follows p obs (.done out)) (hf' : Follows p obs' (.done out'))
    (h : ∀ d a a', (d, a) ∈ obs → (d, a') ∈ obs' → a = a') : out = out' ∧ obs = obs' := by
  induction obs generalizing p obs' with
  | nil =>
    obtain rfl := follows_nil.mp hf
    cases obs' with
    | nil => cases follows_nil.mp hf'; exact ⟨rfl, rfl⟩
    | cons _ _ => exact absurd hf' follows_done_cons
  | cons da obs ih =>
    obtain ⟨d, a⟩ := da
    obtain ⟨k, rfl, hk⟩ := hf.head_read
    cases obs' with
    | nil => cases follows_nil.mp hf'
    | cons da' obs' =>
      obtain ⟨d', a'⟩ := da'
      obtain ⟨rfl, hk'⟩ := follows_read_cons.mp hf'
      obtain rfl := h d a a' (List.mem_cons_self ..) (List.mem_cons_self ..)
      have hrest := ih hk hk' fun d a a' hm hm' =>
        h d a a' (List.mem_cons_of_mem _ hm) (List.mem_cons_of_mem _ hm')
      exact ⟨hrest.1, by rw [hrest.2]⟩

end Stamp

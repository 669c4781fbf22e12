/-
# Length-prefixed data

A list is its length, in as many bytes as the length takes, followed by its elements; a byte string
is a list of bytes.  A longer list never has a shorter prefix (`Prefix`), so a list loses prefixes,
and never gains any, when it loses elements (`Prefix.overhead_le`).
-/
import Mathlib

namespace Framing

/-! ## 1. Numbers -/

/-- A number in at most so many bytes of seven bits, the lowest first; every byte but the last has
its high bit set. -/
def varintWithin : Nat → Nat → List UInt8
  | 0, _ => []
  | fuel + 1, n =>
    if n < 128 then [n.toUInt8] else (n % 128 + 128).toUInt8 :: varintWithin fuel (n / 128)

def varint (n : Nat) : List UInt8 := varintWithin (n + 1) n

theorem length_varintWithin_le {fuel fuel' n m : Nat} (hle : n ≤ m) (hfuel : m < fuel') :
    (varintWithin fuel n).length ≤ (varintWithin fuel' m).length := by
  induction fuel' generalizing fuel n m with
  | zero => exact absurd hfuel (Nat.not_lt_zero m)
  | succ fuel' ih =>
    cases fuel with
    | zero => exact Nat.zero_le _
    | succ fuel =>
      rw [varintWithin, varintWithin]
      split
      · split <;> simp
      · next hn =>
        rw [if_neg (by omega), List.length_cons, List.length_cons]
        exact Nat.succ_le_succ (ih (Nat.div_le_div_right hle) (by omega))

theorem length_varint_le {n m : Nat} (h : n ≤ m) : (varint n).length ≤ (varint m).length :=
  length_varintWithin_le h (Nat.lt_succ_self m)

/-! ## 2. Lists -/

/-- The encoding of lengths. -/
structure Prefix where
  encode : Nat → List UInt8
  length_encode_le : ∀ {n m}, n ≤ m → (encode n).length ≤ (encode m).length

/-- Lengths as `varint`s. -/
def Prefix.varint : Prefix := ⟨Framing.varint, length_varint_le⟩

namespace Prefix

variable {A : Type} (p : Prefix)

/-- A byte string. -/
def bytes (bs : List UInt8) : List UInt8 := p.encode bs.length ++ bs

/-- A list. -/
def list (encode : A → List UInt8) (xs : List A) : List UInt8 :=
  p.encode xs.length ++ xs.flatMap encode

/-- The bytes of all prefixes in a list of byte strings. -/
def overhead (bss : List (List UInt8)) : Nat :=
  (p.encode bss.length).length + (bss.map fun bs => (p.encode bs.length).length).sum

theorem length_list (encode : A → List UInt8) (xs : List A) :
    (p.list encode xs).length =
      (p.encode xs.length).length + (xs.map fun x => (encode x).length).sum := by
  rw [list, List.length_append, List.length_flatMap]

/-- A list of byte strings is its prefixes and the byte strings. -/
theorem length_list_bytes (bss : List (List UInt8)) :
    (p.list p.bytes bss).length = p.overhead bss + (bss.map List.length).sum := by
  simp only [length_list, bytes, List.length_append, List.sum_map_add, overhead]
  exact (Nat.add_assoc ..).symm

/-- **Fewer byte strings have fewer prefixes.** -/
theorem overhead_le {bss bss' : List (List UInt8)} (h : bss.Subperm bss') :
    p.overhead bss ≤ p.overhead bss' := by
  have hcount := p.length_encode_le h.length_le
  obtain ⟨bss'', hperm, hsub⟩ := h
  have hsum := (hsub.map fun bs => (p.encode bs.length).length).sum_le_sum
    fun n _ => Nat.zero_le n
  rw [(hperm.map _).sum_eq] at hsum
  exact Nat.add_le_add hcount hsum

end Prefix

end Framing

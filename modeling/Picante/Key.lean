/-
# Keys, revisions and errors

The identifiers everything else is indexed by: a query kind with an encoded key names an input
slot, an interned value or a derived query (`key.rs`), revisions count the changes of one
runtime (`revision.rs`), and `PicanteError` is what a failed access reports (`error.rs`).

Keys are their encoded bytes: two keys are equal when their bytes are, as in the source.
Kinds, ids and revisions are unbounded naturals; nothing here wraps.
-/

namespace Picante

/-- Stable identifier for a query or input kind. -/
abbrev QueryKindId := Nat

/-- The encoded bytes of a key. -/
abbrev Key := List UInt8

/-- Erased key: a kind and the encoded key within it. -/
structure DynKey where
  kind : QueryKindId
  key : Key
  deriving DecidableEq, Repr

/-- A recorded dependency edge: the kind and key depended on. -/
abbrev Dep := DynKey

/-- A revision of a runtime. -/
abbrev Revision := Nat

/-- Identifier of a database family, or the private scope of a diverged snapshot. -/
abbrev RuntimeId := Nat

/-- A runtime or persistence error. -/
inductive PicanteError where
  | cycle (requested : DynKey) (stack : List DynKey)
  | encode (what message : String)
  | decode (what message : String)
  | cache (message : String)
  | missingInternedValue (kind : QueryKindId) (id : Nat)
  | missingInputValue (kind : QueryKindId) (keyHash : Nat)
  | panic (message : String)
  deriving DecidableEq, Repr

/-- The result of a fallible operation. -/
abbrev PicanteResult (T : Type) := Except PicanteError T

/-- What an ingredient holds, as its section of a cache file declares it. -/
inductive SectionType where
  | input
  | derived
  | interned
  deriving DecidableEq, Repr

end Picante

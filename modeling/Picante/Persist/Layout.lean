/-
# The layout of a cache file

How long an encoded cache file is depends on how `facet_postcard` lays it out: the headers, and a
length before each list and each record.  What is said of a codec that lays files out so
(`Codec.LaysOut`) holds of every `Layout`; `Layout.postcard` is the one in use, with lengths as
varints.
-/
import Picante.Persist.File
import Picante.Framing.Prefixed

namespace Picante

open Framing

variable {V : Type}

/-- How `facet_postcard` lays out a cache file: lists and byte strings are prefixed by their
lengths. -/
structure Layout where
  lengthPrefix : Prefix
  /-- the format version and the revision -/
  header : Nat → Revision → Bytes
  /-- the kind id, the kind name and the type of a section -/
  sectionHeader : QueryKindId → String → SectionType → Bytes

namespace Layout

variable (L : Layout)

def encodeSection (s : Section) : Bytes :=
  L.sectionHeader s.kindId s.kindName s.sectionType ++
    L.lengthPrefix.list L.lengthPrefix.bytes s.records

def encode (f : CacheFile) : Bytes :=
  L.header f.formatVersion f.currentRevision ++ L.lengthPrefix.list L.encodeSection f.sections

/-- What a section takes besides its records. -/
def sectionFraming (s : Section) : Nat :=
  (L.sectionHeader s.kindId s.kindName s.sectionType).length + L.lengthPrefix.overhead s.records

/-- What a cache takes besides its records: the headers, and the prefixes of all lists and of all
records. -/
def framing (f : CacheFile) : Nat :=
  (L.header f.formatVersion f.currentRevision).length +
    (L.lengthPrefix.encode f.sections.length).length + (f.sections.map L.sectionFraming).sum

end Layout

/-- The codec encodes every cache file, and lays it out so. -/
def Codec.LaysOut (C : Codec V) (L : Layout) : Prop := ∀ f, C.encodeFile f = .ok (L.encode f)

/-- The layout of `facet_postcard`. -/
def Layout.postcard : Layout where
  lengthPrefix := .varint
  header version revision := varint version ++ varint revision
  sectionHeader kindId kindName ty :=
    varint kindId ++ Prefix.varint.bytes kindName.toUTF8.data.toList ++
      varint (match ty with | .input => 0 | .derived => 1 | .interned => 2)

/-- A codec that lays out files, and encodes no records. -/
def Codec.ofLayout [DecidableEq V] (L : Layout) : Codec V :=
  { Codec.ofTable ⟨[], [], [], []⟩ with encodeFile := fun f => .ok (L.encode f) }

theorem Codec.laysOut_ofLayout [DecidableEq V] (L : Layout) : (ofLayout (V := V) L).LaysOut L :=
  fun _ => rfl

end Picante

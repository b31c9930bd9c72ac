import DocSchema.Number.Binary64
import DocSchema.Text.Bytes

set_option autoImplicit false

namespace DocSchema

/-- Whether a text is the encoding of characters. -/
def Bytes.IsUtf8 (s : Bytes) : Prop :=
  s.toByteArray.IsValidUTF8

instance (s : Bytes) : Decidable s.IsUtf8 :=
  inferInstanceAs (Decidable s.toByteArray.IsValidUTF8)

/-- A JSON tree. Numbers keep the form in which they were written, and an object its members in the
order in which they were set. -/
inductive Json where
  | null
  | bool (b : Bool)
  | int (i : Int64)
  | uint (n : UInt64)
  | float (x : Binary64)
  | string (s : Bytes)
  | array (items : List Json)
  | object (members : List (Bytes × Json))

namespace Json

/-- Whether the members of every object stand in the order of their keys, one for each key. -/
inductive IsSorted : Json → Prop
  | null : IsSorted .null
  | bool (b : Bool) : IsSorted (.bool b)
  | int (i : Int64) : IsSorted (.int i)
  | uint (n : UInt64) : IsSorted (.uint n)
  | float (x : Binary64) : IsSorted (.float x)
  | string (s : Bytes) : IsSorted (.string s)
  | array {items : List Json} (each : ∀ j ∈ items, IsSorted j) : IsSorted (.array items)
  | object {members : List (Bytes × Json)} (order : members.Pairwise fun a b => a.1 < b.1)
      (each : ∀ m ∈ members, IsSorted m.2) : IsSorted (.object members)

/-- Whether all strings and all keys are encodings of characters. -/
inductive IsUtf8 : Json → Prop
  | null : IsUtf8 .null
  | bool (b : Bool) : IsUtf8 (.bool b)
  | int (i : Int64) : IsUtf8 (.int i)
  | uint (n : UInt64) : IsUtf8 (.uint n)
  | float (x : Binary64) : IsUtf8 (.float x)
  | string {s : Bytes} (encoded : s.IsUtf8) : IsUtf8 (.string s)
  | array {items : List Json} (each : ∀ j ∈ items, IsUtf8 j) : IsUtf8 (.array items)
  | object {members : List (Bytes × Json)} (keys : ∀ m ∈ members, m.1.IsUtf8)
      (each : ∀ m ∈ members, IsUtf8 m.2) : IsUtf8 (.object members)

/-- What writes trees as text, where there is a text. -/
abbrev Writer :=
  Json → Option Bytes

/-- What is asked of a writer. It writes a number alike whether signed or not, and a container by
the texts of its parts; a string that encodes no characters it refuses, and nothing else. -/
structure Writer.IsLawful (dump? : Writer) : Prop where
  number (n : UInt64) (small : n.toNat < Int64.size / 2) :
    dump? (.int (Int64.ofNat n.toNat)) = dump? (.uint n)
  array {items items' : List Json} (alike : items.map dump? = items'.map dump?) :
    dump? (.array items) = dump? (.array items')
  object {members members' : List (Bytes × Json)}
    (alike : members.map (Prod.map id dump?) = members'.map (Prod.map id dump?)) :
    dump? (.object members) = dump? (.object members')
  written {j : Json} (encoded : j.IsUtf8) : (dump? j).isSome
  encoded {j : Json} (sorted : j.IsSorted) (written : (dump? j).isSome) : j.IsUtf8

end Json

end DocSchema

import VirtualMesh.Json.Literal
import VirtualMesh.Json.Numeral
import VirtualMesh.Json.Parser

/-!
# Values as data

A type is coded if its values have a written form and can be read from values of the format. A
record is written as an object and read from an object, with its members in any order, or from an
array of its fields. Members of unknown names are skipped unless the record is strict.
-/

namespace VirtualMesh

class Coded (α : Type) where
  encode : α → Json
  decode? : Json → Option α

namespace Json

/-- The text of a value. -/
def write {α : Type} [Coded α] (a : α) : List Char := (Coded.encode a).render

/-- The value that a text is read as. -/
def read? {α : Type} [Coded α] (cs : List Char) : Option α := (parse? cs).bind Coded.decode?

def int? : Json → Option Int
  | .number text => integer? text
  | _ => none

/-- An integer from zero up to, and without, `bound`. -/
def natBelow? (bound : Nat) (j : Json) : Option Nat := do
  let i ← j.int?
  if 0 ≤ i ∧ i < bound then some i.toNat else none

def string? : Json → Option (List Char)
  | .string raw => literalText? raw
  | _ => none

/-- Bytes: an array of numbers below 256, or a string. -/
def bytes? : Json → Option Bytes
  | .array vs => vs.mapM fun v => (v.natBelow? 256).map UInt8.ofNat
  | .string raw => literalBytes? raw
  | _ => none

def ofBytes (bs : Bytes) : Json := .array (bs.map fun b => ofNat b.toNat)

/-- A name that stands for a value: a string, or an object of that one name with nothing. -/
def name? : Json → Option (List Char)
  | .object [(key, .null)] => literalText? key
  | j => j.string?

/-- What a record does with members of unknown names. -/
inductive Unknown where
  | skip
  | refuse
  deriving DecidableEq

/-- Takes the member of a name out of an object; none if the name repeats. -/
def takeMember (name : List Char) (ms : List (List Char × Json)) : Option (Option Json) :=
  match ms.filter fun m => m.1 = name with
  | [] => some none
  | [(_, v)] => some (some v)
  | _ => none

/-- The members of an object under the texts of their names. -/
def readNames (ms : List (List Char × Json)) : Option (List (List Char × Json)) :=
  ms.mapM fun m => (literalText? m.1).map (·, m.2)

/-- The fields of a record in the order of `names`, each if it is there. -/
def fields? (unknown : Unknown) (names : List (List Char)) : Json → Option (List (Option Json))
  | .array vs => if vs.length = names.length then some (vs.map some) else none
  | .object ms => do
    let ms ← readNames ms
    let others := ms.filter fun m => !names.contains m.1
    if unknown = .refuse && !others.isEmpty then none
    if others.all fun m => m.2.skippable then names.mapM fun n => takeMember n ms else none
  | _ => none

/-- A field that has to be there. -/
def required {α : Type} [Coded α] (field : Option Json) : Option α := field.bind Coded.decode?

def encodeOption {α : Type} [Coded α] : Option α → Json
  | none => .null
  | some a => Coded.encode a

/-- A field that may be missing or null. -/
def optional {α : Type} [Coded α] : Option Json → Option (Option α)
  | none => some none
  | some .null => some none
  | some j => (Coded.decode? j).map some

/-- An object of these members. -/
def record (members : List (String × Json)) : Json :=
  .object (members.map fun m => (m.1.toList, m.2))

end Json

end VirtualMesh

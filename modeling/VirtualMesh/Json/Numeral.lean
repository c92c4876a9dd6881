import VirtualMesh.Binary64
import VirtualMesh.Decimal.Layout
import VirtualMesh.Json.Basic

/-!
# Numbers

A number in JSON is an integer if it has neither a fraction nor an exponent and is not minus
zero. To read a number as a double, its leading digits are taken as far as 64 bits hold them and
scaled by a power of ten in floating point; a number too large for a double is no number.
-/

namespace VirtualMesh.Json

def ofNat (n : Nat) : Json := .number (Decimal.digits n)

def ofInt (i : Int) : Json := .number (Decimal.signed i)

/-- A double as its shortest text; what is not finite has none. -/
def ofDouble (x : Binary64) : Json := if x.isFinite then .number (Decimal.dataLayout.text x) else .null

/-- The integer that a numeral is. -/
def integer? (text : List Char) : Option Int :=
  match text with
  | '-' :: ds =>
    if ds.all Char.isDigit && Decimal.value ds ≠ 0 then some (-(Decimal.value ds : Int)) else none
  | ds => if ds.all Char.isDigit then some (Decimal.value ds) else none

/-- The parts of a numeral: its sign, the digits around the point, and the exponent. -/
structure NumeralParts where
  negative : Bool
  whole : List Char
  fraction : List Char
  exponent : Int

def exponentValue : List Char → Int
  | '-' :: ds => -(Decimal.value ds : Int)
  | '+' :: ds => Decimal.value ds
  | ds => Decimal.value ds

def numeralParts (text : List Char) : NumeralParts :=
  let negative := text.head? = some '-'
  let text := if negative then text.drop 1 else text
  let whole := text.takeWhile Char.isDigit
  let rest := text.dropWhile Char.isDigit
  let (fraction, rest) :=
    match rest with
    | '.' :: r => (r.takeWhile Char.isDigit, r.dropWhile Char.isDigit)
    | r => ([], r)
  ⟨negative, whole, fraction, exponentValue (rest.drop 1)⟩

/-- Appends digits to a 64-bit number while it stays one; the rest are left over. -/
def absorb (n : Nat) : List Char → Nat × List Char
  | [] => (n, [])
  | d :: ds =>
    let next := 10 * n + Decimal.digitValue d
    if next < 2 ^ 64 then absorb next ds else (n, d :: ds)

/-- The largest power of ten that is a double. -/
def greatestPower : Nat := 308

/-- `x · 10 ^ e`; none if that is too large. -/
def scale? (x : Float) (e : Int) : Option Float :=
  if 0 ≤ e then
    if e ≤ greatestPower then
      let y := x * Binary64.pow10 e.toNat
      if y.isInf then none else some y
    else if x == 0 then some x
    else none
  else if -e ≤ greatestPower then some (x / Binary64.pow10 (-e).toNat)
  else if x == 0 then some x
  else scale? (x / Binary64.pow10 greatestPower) (e + greatestPower)
termination_by e.natAbs
decreasing_by simp only [greatestPower] at *; omega

def float? (text : List Char) : Option Float :=
  let p := numeralParts text
  let (n, left) := absorb 0 p.whole
  let (m, beyond) := absorb n p.fraction
  let used : Int := p.fraction.length - beyond.length
  let magnitude := scale? (UInt64.ofNat m).toFloat (left.length - used + p.exponent)
  magnitude.map fun x => if p.negative then -x else x

end VirtualMesh.Json

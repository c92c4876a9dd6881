import VirtualMesh.Binary64
import VirtualMesh.Decimal.Digits

/-!
# Shortest decimals

A double is written with the fewest digits that read back as the same double, and of those with
the digits nearest to it. The grids of the powers of ten are tried from coarse to fine, in exact
arithmetic, and the first grid with a point among the reals that round to the double decides. A
double may lie halfway between two points of that grid; which of them is taken is up to the caller.
-/

namespace VirtualMesh.Decimal

/-- A positive double as `value / unit`, and the reals that round to it: those between
`low / unit` and `high / unit`, with the ends if `closed`. -/
structure Neighbourhood where
  value : Nat
  low : Nat
  high : Nat
  unit : Nat
  closed : Bool

def Neighbourhood.of (x : Binary64) : Neighbourhood :=
  let m := x.magnitude
  let scale := Nat.pow 2 (m.exponent - 2).toNat
  let below := if x.isBinadeStart then 1 else 2
  { value := 4 * m.mantissa * scale
    low := (4 * m.mantissa - below) * scale
    high := (4 * m.mantissa + 2) * scale
    unit := Nat.pow 2 (2 - m.exponent).toNat
    closed := m.mantissa % 2 = 0 }

/-- A decimal number `coefficient · 10 ^ exponent`. -/
structure Scientific where
  coefficient : Nat
  exponent : Int

/-- Which of two neighbouring decimals stands for a double halfway between them. -/
inductive Tie where
  /-- The one with an even last digit. -/
  | even
  /-- The one further from zero. -/
  | away

/-- Whether a tie above the coefficient `c` goes to `c + 1`. -/
def Tie.goesUp : Tie → (c : Nat) → Bool
  | .even, c => c % 2 = 1
  | .away, _ => true

/-- The point of the grid of `10 ^ k` nearest to the double, if one reads back as the double. -/
def Neighbourhood.onGrid (b : Neighbourhood) (tie : Tie) (k : Int) : Option Nat :=
  let step := b.unit * Nat.pow 10 k.toNat
  let scale := Nat.pow 10 (-k).toNat
  let inside (c : Nat) : Bool :=
    if b.closed then b.low * scale ≤ c * step && c * step ≤ b.high * scale
    else b.low * scale < c * step && c * step < b.high * scale
  let c := b.value * scale / step
  match inside c, inside (c + 1) with
  | true, true =>
    let twice := 2 * (b.value * scale)
    let middle := (2 * c + 1) * step
    if twice < middle then some c
    else if middle < twice then some (c + 1)
    else if tie.goesUp c then some (c + 1) else some c
  | true, false => some c
  | false, true => some (c + 1)
  | false, false => none

/-- Tries `count` grids, from that of `10 ^ k` downwards. -/
def Neighbourhood.search (b : Neighbourhood) (tie : Tie) : (count : Nat) → (k : Int) → Scientific
  | 0, k => ⟨0, k⟩
  | count + 1, k =>
    match b.onGrid tie k with
    | some c => ⟨c, k⟩
    | none => b.search tie count (k - 1)

/-- The shortest decimal of a double that is neither zero nor infinite nor undefined, without its
sign. Doubles lie between 10⁻³²⁴ and 10³⁰⁹, and 17 digits always suffice. -/
def shortest (tie : Tie) (x : Binary64) : Scientific := (Neighbourhood.of x).search tie 660 310

end VirtualMesh.Decimal

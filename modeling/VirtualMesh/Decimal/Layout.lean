import VirtualMesh.Decimal.Shortest

/-!
# Layout of doubles

The digits of a double are the shortest that read back. A layout says which way a tie between
two of them goes, where the exponent is written out, and whether a whole number shows a point.
-/

namespace VirtualMesh.Decimal

structure Layout where
  tie : Tie
  /-- Whole numbers end in `.0`. -/
  pointed : Bool
  /-- The least and greatest decimal exponents of numbers that are written without an exponent;
  `none` if all numbers are. -/
  positional : Option (Int × Int)

/-- Running text: ties go away from zero, there is never an exponent, and whole numbers stand as
they are. -/
def plainLayout : Layout := ⟨.away, false, none⟩

/-- Data: ties go to the even digit, every number shows that it is no integer, and an exponent is
used from 10¹⁶ on and below 10⁻⁵. -/
def dataLayout : Layout := ⟨.even, true, some (-5, 15)⟩

def zeros (n : Nat) : List Char := List.replicate n '0'

def Layout.isPositional (l : Layout) (leading : Int) : Bool :=
  match l.positional with
  | none => true
  | some (least, greatest) => least ≤ leading && leading ≤ greatest

/-- The text of a positive decimal. -/
def Layout.scientific (l : Layout) (s : Scientific) : List Char :=
  let ds := digits s.coefficient
  let leading := s.exponent + ds.length - 1
  if l.isPositional leading then
    if 0 ≤ s.exponent then
      ds ++ zeros s.exponent.toNat ++ (if l.pointed then ['.', '0'] else [])
    else if 0 ≤ leading then
      ds.take (leading.toNat + 1) ++ '.' :: ds.drop (leading.toNat + 1)
    else
      '0' :: '.' :: zeros (-leading - 1).toNat ++ ds
  else
    let front :=
      match ds with
      | d :: rest@(_ :: _) => d :: '.' :: rest
      | _ => ds
    let sign := if leading < 0 then '-' else '+'
    front ++ 'e' :: sign :: digits leading.natAbs

def Layout.text (l : Layout) (x : Binary64) : List Char :=
  if x.isNaN then ['N', 'a', 'N']
  else
    let magnitude :=
      if !x.isFinite then ['i', 'n', 'f']
      else if x.isZero then (if l.pointed then ['0', '.', '0'] else ['0'])
      else l.scientific (shortest l.tie x)
    if x.isNegative then '-' :: magnitude else magnitude

end VirtualMesh.Decimal

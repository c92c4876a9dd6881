import VirtualMesh.Power

/-!
# Double-precision numbers

A double is kept as its 64 bits: a sign, eleven bits of exponent, and 52 bits of fraction. A
finite one is a whole number times a power of two. Arithmetic is done on the machine's doubles.
-/

namespace VirtualMesh

structure Binary64 where
  bits : UInt64
  deriving DecidableEq

namespace Binary64

def toFloat (x : Binary64) : Float := Float.ofBits x.bits

def ofFloat (x : Float) : Binary64 := ⟨x.toBits⟩

def isNegative (x : Binary64) : Bool := x.bits.toNat / 2 ^ 63 = 1

def exponentBits (x : Binary64) : Nat := x.bits.toNat / 2 ^ 52 % 2 ^ 11

def fractionBits (x : Binary64) : Nat := x.bits.toNat % 2 ^ 52

def isFinite (x : Binary64) : Bool := x.exponentBits < 2047

def isNaN (x : Binary64) : Bool := x.exponentBits = 2047 && x.fractionBits ≠ 0

def isZero (x : Binary64) : Bool := x.exponentBits = 0 && x.fractionBits = 0

/-- The magnitude of a finite double as `mantissa · 2 ^ exponent`. -/
structure Magnitude where
  mantissa : Nat
  exponent : Int

def magnitude (x : Binary64) : Magnitude :=
  if x.exponentBits = 0 then ⟨x.fractionBits, -1074⟩
  else ⟨2 ^ 52 + x.fractionBits, (x.exponentBits : Int) - 1075⟩

/-- The next double toward zero is half as far away as the next one away from it. -/
def isBinadeStart (x : Binary64) : Bool := x.fractionBits = 0 && 1 < x.exponentBits

/-- The double nearest to `n`, ties to even. Above 64 bits the low bits are folded into one, which
keeps the side of a tie on which `n` lies. -/
def nearest (n : Nat) : Float :=
  if n < 2 ^ 64 then (UInt64.ofNat n).toFloat
  else
    let s := n.log2 - 62
    let front := n >>> s
    let kept := if n % Nat.pow 2 s = 0 then front else front ||| 1
    (UInt64.ofNat kept).toFloat.scaleB s

/-- A power of ten, rounded to the nearest double. -/
def pow10 (e : Nat) : Float := nearest (Nat.pow 10 e)

end Binary64

end VirtualMesh

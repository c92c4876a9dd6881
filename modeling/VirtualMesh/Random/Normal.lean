import VirtualMesh.Latency
import VirtualMesh.Random.Layers
import VirtualMesh.Random.Stream

/-!
# Standard normal numbers

A point is drawn in one of the layers under the normal curve. Most points lie in the part of
their layer that is wholly under the curve; the others are kept if they are under it and drawn
again if not. Below the lowest layer lies the tail, which has a rejection rule of its own.
-/

namespace VirtualMesh.Random

/-- A number between 0 and 1, both excluded, from the top 52 bits of a word. -/
def openUnit (w : UInt64) : Float :=
  Float.ofBits (w >>> 12 ||| 0x3ff0000000000000) - (1.0 - Float.ofBits 0x3ca0000000000000)

/-- A number from 0 up to 1, from the top 53 bits of a word. -/
def halfOpenUnit (w : UInt64) : Float := (w >>> 11).toFloat * Float.ofBits 0x3ca0000000000000

/-- A number from -1 up to 1, from the top 52 bits of a word. -/
def signedUnit (w : UInt64) : Float := Float.ofBits (w >>> 12 ||| 0x4000000000000000) - 3.0

/-- Where the tail begins. -/
def tailStart : Float := edge 1

/-- Draws from the tail on the side of `u`, giving up after `tries` points. -/
def tail (u : Float) : (tries : Nat) → Stream → Float × Stream
  | 0, s => (if u < 0 then -tailStart else tailStart, s)
  | tries + 1, s =>
    let (v, s) := s.next
    let (w, s) := s.next
    let x := (openUnit v).log / tailStart
    let y := (openUnit w).log
    if -2.0 * y < x * x then tail u tries s
    else (if u < 0 then x - tailStart else tailStart - x, s)

/-- How many points are drawn for one number before giving up. Fewer than two points in a
hundred are rejected, so the limit is not met. -/
def tryLimit : Nat := 65536

/-- Draws one point; `none` if it is rejected. -/
def draw? (s : Stream) : Option Float × Stream :=
  let (bits, s) := s.next
  let i := (bits &&& 0xff).toNat
  let u := signedUnit bits
  let x := u * edge i
  if x.abs < edge (i + 1) then (some x, s)
  else if i = 0 then
    let (x, s) := tail u tryLimit s
    (some x, s)
  else
    let (w, s) := s.next
    if height (i + 1) + (height i - height (i + 1)) * halfOpenUnit w < (-x * x / 2.0).exp then
      (some x, s)
    else (none, s)

def normal : (tries : Nat) → Stream → Float × Stream
  | 0, s => (0, s)
  | tries + 1, s =>
    match draw? s with
    | (some x, s) => (x, s)
    | (none, s) => normal tries s

/-- Without a seed the number of the stream is its seed. -/
instance : NormalSource Stream where
  ofSeed := .ofSeed
  unseeded number := .ofSeed (UInt64.ofNat number)
  draw s := normal tryLimit s

end VirtualMesh.Random

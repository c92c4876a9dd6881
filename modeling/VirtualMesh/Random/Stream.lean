/-!
# The word stream

Random words come from a block cipher in counter mode: sixteen words of constants, key, block
number and zeros are mixed in twelve rounds and added to themselves. The key is grown from a
64-bit seed by a linear congruential generator with permuted output.
-/

namespace VirtualMesh.Random

/-- Four words that are mixed side by side. -/
structure Row where
  a : UInt32
  b : UInt32
  c : UInt32
  d : UInt32
  deriving DecidableEq

namespace Row

def zip (f : UInt32 → UInt32 → UInt32) (x y : Row) : Row :=
  ⟨f x.a y.a, f x.b y.b, f x.c y.c, f x.d y.d⟩

/-- The row turned left by one place. -/
def turn (x : Row) : Row := ⟨x.b, x.c, x.d, x.a⟩

def words (x : Row) : List UInt32 := [x.a, x.b, x.c, x.d]

end Row

def rotateLeft (w n : UInt32) : UInt32 := w <<< n ||| w >>> (32 - n)

/-- The four rows of a block. -/
structure Block where
  first : Row
  second : Row
  third : Row
  fourth : Row
  deriving DecidableEq

namespace Block

/-- Adds one row to another, and turns the bits of a third by `n` after it took up the sum. -/
def stir (n : UInt32) (sum addend mixed : Row) : Row × Row :=
  let sum := sum.zip (· + ·) addend
  (sum, mixed.zip (fun x y => rotateLeft (x ^^^ y) n) sum)

/-- One round on the four columns. -/
def round (k : Block) : Block :=
  let (a, d) := stir 16 k.first k.second k.fourth
  let (c, b) := stir 12 k.third d k.second
  let (a, d) := stir 8 a b d
  let (c, b) := stir 7 c d b
  ⟨a, b, c, d⟩

/-- Moves each diagonal into a column. -/
def slant (k : Block) : Block :=
  ⟨k.first, k.second.turn, k.third.turn.turn, k.fourth.turn.turn.turn⟩

/-- Moves each column back onto its diagonal. -/
def straighten (k : Block) : Block :=
  ⟨k.first, k.second.turn.turn.turn, k.third.turn.turn, k.fourth.turn⟩

theorem straighten_slant (k : Block) : k.slant.straighten = k := rfl

def doubleRound (k : Block) : Block := k.round.slant.round.straighten

def mixed : Nat → Block → Block
  | 0, k => k
  | n + 1, k => mixed n k.doubleRound

def zip (f : UInt32 → UInt32 → UInt32) (x y : Block) : Block :=
  ⟨x.first.zip f y.first, x.second.zip f y.second, x.third.zip f y.third, x.fourth.zip f y.fourth⟩

def words (k : Block) : List UInt32 :=
  k.first.words ++ k.second.words ++ k.third.words ++ k.fourth.words

/-- The output block: six double rounds, added to the input. -/
def output (k : Block) : List UInt32 := ((mixed 6 k).zip (· + ·) k).words

end Block

/-- A key of eight words. -/
structure Key where
  low : Row
  high : Row
  deriving DecidableEq

def constants : Row := ⟨0x61707865, 0x3320646e, 0x79622d32, 0x6b206574⟩

def Key.block (k : Key) (number : UInt64) : Block :=
  ⟨constants, k.low, k.high, ⟨number.toUInt32, (number >>> 32).toUInt32, 0, 0⟩⟩

def seedStep (s : UInt64) : UInt64 := s * 6364136223846793005 + 11634580027462260723

/-- The word that a seed state shows: a middle part of it, turned by its top bits. -/
def seedWord (s : UInt64) : UInt32 :=
  let word := (((s >>> 18) ^^^ s) >>> 27).toUInt32
  let turn := (s >>> 59).toUInt32
  word >>> turn ||| word <<< ((32 - turn) % 32)

/-- Four words from successive seed states, and the state after them. -/
def seedRow (s : UInt64) : Row × UInt64 :=
  let s₁ := seedStep s
  let s₂ := seedStep s₁
  let s₃ := seedStep s₂
  let s₄ := seedStep s₃
  (⟨seedWord s₁, seedWord s₂, seedWord s₃, seedWord s₄⟩, s₄)

def Key.ofSeed (seed : UInt64) : Key :=
  let (low, s) := seedRow seed
  ⟨low, (seedRow s).1⟩

/-- A place in the stream: the next block to compute, and what is left of the last one. -/
structure Stream where
  key : Key
  number : UInt64
  rest : List UInt32

namespace Stream

def ofSeed (seed : UInt64) : Stream := ⟨.ofSeed seed, 0, []⟩

/-- The next two words as one, the first of them low. -/
def next (s : Stream) : UInt64 × Stream :=
  match s.rest with
  | low :: high :: rest => (low.toUInt64 ||| high.toUInt64 <<< 32, { s with rest })
  | _ =>
    match (s.key.block s.number).output with
    | low :: high :: rest =>
      (low.toUInt64 ||| high.toUInt64 <<< 32, { s with number := s.number + 1, rest })
    | _ => (0, s)

end Stream

end VirtualMesh.Random

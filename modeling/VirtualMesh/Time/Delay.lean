import VirtualMesh.Time.Duration

/-!
# Delays

A delay is a signed 64-bit number of nanoseconds. Delays come from an unbounded distribution, so
all arithmetic on them stops at the ends of the range instead of leaving it.
-/

namespace VirtualMesh

structure Delay where
  nanos : Int
  ge : -2 ^ 63 ≤ nanos := by decide
  lt : nanos < 2 ^ 63 := by decide

namespace Delay

@[ext]
theorem ext {a b : Delay} (h : a.nanos = b.nanos) : a = b := by
  cases a; cases b; cases h; rfl

instance : DecidableEq Delay := fun a b =>
  if h : a.nanos = b.nanos then .isTrue (ext h) else .isFalse fun hab => h (hab ▸ rfl)

def zero : Delay := ⟨0, by decide, by decide⟩

/-- The longest delay. -/
def top : Delay := ⟨2 ^ 63 - 1, by decide, by decide⟩

/-- The delay furthest below zero. -/
def bottom : Delay := ⟨-2 ^ 63, by decide, by decide⟩

instance : Inhabited Delay := ⟨zero⟩

/-- The delay nearest to a number of nanoseconds. -/
def ofInt (i : Int) : Delay :=
  if h : i < -2 ^ 63 then bottom
  else if h' : i < 2 ^ 63 then ⟨i, Int.not_lt.1 h, h'⟩
  else top

theorem nanos_ofInt (i : Int) : (ofInt i).nanos = max (-2 ^ 63) (min i (2 ^ 63 - 1)) := by
  unfold ofInt
  split
  · simp only [bottom]; omega
  · split
    · simp only []; omega
    · simp only [top]; omega

def ofInt? (i : Int) : Option Delay :=
  if h : -2 ^ 63 ≤ i ∧ i < 2 ^ 63 then some ⟨i, h.1, h.2⟩ else none

def ofMillis (i : Int) : Delay := ofInt (i * 10 ^ 6)

/-- Fractions of a nanosecond are cut off, and what is no number counts as zero. -/
def ofFloat (nanos : Float) : Delay :=
  if nanos < 0 then ofInt (-(-nanos).toUInt64.toNat) else ofInt nanos.toUInt64.toNat

def ofDuration (d : Duration) : Delay := ofInt d.nanos

def seconds (d : Delay) : Float := (Int64.ofInt d.nanos).toFloat / 1e9

def isNegative (d : Delay) : Bool := d.nanos < 0

/-- The delay as a duration, with zero for what lies below it. -/
def clamped (d : Delay) : Duration :=
  ⟨d.nanos.toNat, by have := d.lt; omega⟩

/-- Zero if the delay is below it. -/
def maxZero (d : Delay) : Delay :=
  ⟨max d.nanos 0, by omega, by have := d.lt; omega⟩

def add (a b : Delay) : Delay := ofInt (a.nanos + b.nanos)

instance : Add Delay := ⟨add⟩

theorem nanos_add (a b : Delay) :
    (a + b).nanos = max (-2 ^ 63) (min (a.nanos + b.nanos) (2 ^ 63 - 1)) :=
  nanos_ofInt _

/-- The sum from left to right, stopping at the ends of the range at every step. -/
def sum (ds : List Delay) : Delay := ds.foldl (· + ·) zero

/-- Adds a delay, in place, to the total so far. -/
def accrue (d : Delay) : StateM Delay Unit := modify fun total => ofInt (total.nanos + d.nanos)

/-- The total that `start` grows to as the delays accrue to it, one after another. -/
def accrued (start : Delay) (ds : List Delay) : Delay := ((ds.forM accrue).run start).2

instance : LE Delay := ⟨fun a b => a.nanos ≤ b.nanos⟩

instance : LT Delay := ⟨fun a b => a.nanos < b.nanos⟩

instance (a b : Delay) : Decidable (a ≤ b) := inferInstanceAs (Decidable (a.nanos ≤ b.nanos))

instance (a b : Delay) : Decidable (a < b) := inferInstanceAs (Decidable (a.nanos < b.nanos))

instance : Min Delay := ⟨fun a b => if a ≤ b then a else b⟩

instance : Max Delay := ⟨fun a b => if a ≤ b then b else a⟩

def compare (a b : Delay) : Ordering := Ord.compare a.nanos b.nanos

def sort (ds : List Delay) : List Delay := ds.mergeSort fun a b => a.nanos ≤ b.nanos

/-- A minus sign in front of the text of the magnitude, for delays below zero. -/
def text (d : Delay) : List Char :=
  if d.isNegative then '-' :: Duration.nanosText d.nanos.natAbs
  else Duration.nanosText d.nanos.natAbs

end Delay

end VirtualMesh

import VirtualMesh.Decimal.Digits
import VirtualMesh.Power

/-!
# Durations

A duration is a span of time of zero or more nanoseconds, below 2⁶⁴ seconds. It is written in
the largest of the units s, ms, µs and ns of which it holds at least one, without rounding.
-/

namespace VirtualMesh

structure Duration where
  nanos : Nat
  lt : nanos < 2 ^ 64 * 10 ^ 9 := by decide

namespace Duration

@[ext]
theorem ext {a b : Duration} (h : a.nanos = b.nanos) : a = b := by
  cases a; cases b; cases h; rfl

instance : DecidableEq Duration := fun a b =>
  if h : a.nanos = b.nanos then .isTrue (ext h) else .isFalse fun hab => h (hab ▸ rfl)

def zero : Duration := ⟨0, by decide⟩

instance : Inhabited Duration := ⟨zero⟩

def ofNanos? (nanos : Nat) : Option Duration :=
  if h : nanos < 2 ^ 64 * 10 ^ 9 then some ⟨nanos, h⟩ else none

/-- The span of whole seconds and further nanoseconds, which may be more than a second. -/
def ofParts? (secs nanos : Nat) : Option Duration := ofNanos? (secs * 10 ^ 9 + nanos)

def secs (d : Duration) : Nat := d.nanos / 10 ^ 9

/-- The nanoseconds beyond the whole seconds. -/
def subsecNanos (d : Duration) : Nat := d.nanos % 10 ^ 9

theorem ofParts?_secs_subsecNanos (d : Duration) : ofParts? d.secs d.subsecNanos = some d := by
  have h : d.secs * 10 ^ 9 + d.subsecNanos = d.nanos := by
    simp only [secs, subsecNanos]; omega
  simp only [ofParts?, h, ofNanos?, d.lt, dite_true]

/-- A unit of time, by the number of decimal places that it leaves to nanoseconds. -/
structure TimeUnit where
  places : Nat
  name : List Char

def second : TimeUnit := ⟨9, ['s']⟩

def millisecond : TimeUnit := ⟨6, ['m', 's']⟩

def microsecond : TimeUnit := ⟨3, ['µ', 's']⟩

def nanosecond : TimeUnit := ⟨0, ['n', 's']⟩

/-- The largest unit of which `nanos` nanoseconds hold at least one. -/
def unitOf (nanos : Nat) : TimeUnit :=
  if 10 ^ 9 ≤ nanos then second
  else if 10 ^ 6 ≤ nanos then millisecond
  else if 10 ^ 3 ≤ nanos then microsecond
  else nanosecond

/-- A fraction of `places` decimal places, with its point, or nothing if it is zero. -/
def fraction (places n : Nat) : List Char :=
  match Decimal.trimZeros (Decimal.padded places n) with
  | [] => []
  | ds => '.' :: ds

def nanosText (nanos : Nat) : List Char :=
  let u := unitOf nanos
  let size := Nat.pow 10 u.places
  Decimal.digits (nanos / size) ++ fraction u.places (nanos % size) ++ u.name

def text (d : Duration) : List Char := nanosText d.nanos

end Duration

end VirtualMesh

import VirtualMesh.Time.Duration

/-!
# Instants

An instant is a point on the time line in nanoseconds from a fixed origin, and its whole seconds
fit 64 signed bits. Where a run starts on that line is free.
-/

namespace VirtualMesh

structure Instant where
  nanos : Int
  ge : -2 ^ 63 * 10 ^ 9 ≤ nanos := by decide
  lt : nanos < 2 ^ 63 * 10 ^ 9 := by decide

namespace Instant

@[ext]
theorem ext {a b : Instant} (h : a.nanos = b.nanos) : a = b := by
  cases a; cases b; cases h; rfl

instance : DecidableEq Instant := fun a b =>
  if h : a.nanos = b.nanos then .isTrue (ext h) else .isFalse fun hab => h (hab ▸ rfl)

instance : Inhabited Instant := ⟨⟨0, by decide, by decide⟩⟩

/-- The end of the time line. -/
def last : Instant := ⟨2 ^ 63 * 10 ^ 9 - 1, by decide, by decide⟩

instance : LE Instant := ⟨fun a b => a.nanos ≤ b.nanos⟩

instance : LT Instant := ⟨fun a b => a.nanos < b.nanos⟩

instance (a b : Instant) : Decidable (a ≤ b) := inferInstanceAs (Decidable (a.nanos ≤ b.nanos))

instance (a b : Instant) : Decidable (a < b) := inferInstanceAs (Decidable (a.nanos < b.nanos))

instance : Max Instant := ⟨fun a b => if a ≤ b then b else a⟩

theorem le_def {a b : Instant} : a ≤ b ↔ a.nanos ≤ b.nanos := .rfl

theorem le_last (t : Instant) : t ≤ last := by
  have hlt := t.lt
  rw [le_def]
  simp only [last]
  omega

theorem nanos_max (a b : Instant) : (max a b).nanos = max a.nanos b.nanos := by
  show (if a.nanos ≤ b.nanos then b else a).nanos = _
  split <;> omega

def ofNanos? (i : Int) : Option Instant :=
  if h : -2 ^ 63 * 10 ^ 9 ≤ i ∧ i < 2 ^ 63 * 10 ^ 9 then some ⟨i, h.1, h.2⟩ else none

/-- The instant a signed number of nanoseconds away, if there is one. -/
def shift? (t : Instant) (offset : Int) : Option Instant :=
  ofNanos? (t.nanos + offset)

/-- The instant after `d` has passed, if there is one. -/
def add? (t : Instant) (d : Duration) : Option Instant := t.shift? d.nanos

/-- Nanoseconds since `origin`, below zero if `t` lies before it. -/
def since (t origin : Instant) : Int := t.nanos - origin.nanos

end Instant

end VirtualMesh

import Mathlib.Algebra.Order.Field.Rat
import Mathlib.Data.Int.Cast.Lemmas
import VirtualMesh.Proofs.Decimal
import VirtualMesh.Time.Delay

/-!
# Reading delays

The text of a delay is a decimal number and a unit, behind a minus sign for a delay below zero. Read as that number of
its unit it is the delay itself, so no two delays share a text.
-/

namespace VirtualMesh

namespace Duration

/-- How many nanoseconds the unit of a name has. -/
def unitNanos? : List Char → Option ℚ
  | ['s'] => some 1000000000
  | ['m', 's'] => some 1000000
  | ['µ', 's'] => some 1000
  | ['n', 's'] => some 1
  | _ => none

/-- The number of nanoseconds that a text stands for: so many of the unit behind the number. -/
def read? (cs : List Char) : Option ℚ := do
  let (number, name) ← Decimal.number? cs
  let unit ← unitNanos? name
  return number * unit

theorem unitNanos?_unitOf (nanos : Nat) : unitNanos? (unitOf nanos).name = some (10 ^ (unitOf nanos).places) := by
  unfold unitOf
  split
  · norm_num [unitNanos?, second]
  split
  · norm_num [unitNanos?, millisecond]
  split
  · norm_num [unitNanos?, microsecond]
  · norm_num [unitNanos?, nanosecond]

/-- No name of a unit goes on with the number in front of it. -/
theorem name_unitOf (nanos : Nat) : ∃ c rest, (unitOf nanos).name = c :: rest ∧ c.isDigit = false ∧ c ≠ '.' := by
  unfold unitOf
  split
  · exact ⟨'s', [], rfl, rfl, by decide⟩
  split
  · exact ⟨'m', ['s'], rfl, rfl, by decide⟩
  split
  · exact ⟨'µ', ['s'], rfl, rfl, by decide⟩
  · exact ⟨'n', ['s'], rfl, rfl, by decide⟩

/-- The fraction is what the whole number of units leaves over. -/
theorem value_add_belowOne (places n : Nat) :
    (Decimal.value (Decimal.digits (n / 10 ^ places)) : ℚ) +
      Decimal.belowOne (Decimal.trimZeros (Decimal.padded places (n % 10 ^ places))) = n / 10 ^ places := by
  have hsplit : (10 ^ places * (n / 10 ^ places : ℕ) + (n % 10 ^ places : ℕ) : ℚ) = n := by
    exact_mod_cast Nat.div_add_mod n (10 ^ places)
  rw [Decimal.belowOne_trimZeros, Decimal.belowOne, Decimal.value_digits, Decimal.value_padded, Nat.mod_mod,
    Decimal.length_padded, ← hsplit]
  field_simp

/-- A fraction without digits has no point either, and counts for nothing. -/
theorem number?_append_fraction {whole : List Char} {c : Char} (hne : whole ≠ [])
    (hwhole : ∀ d ∈ whole, d.isDigit = true) (hc : c.isDigit = false) (hpoint : c ≠ '.') (places n : Nat)
    (rest : List Char) : Decimal.number? (whole ++ fraction places n ++ c :: rest) =
      some (Decimal.value whole + Decimal.belowOne (Decimal.trimZeros (Decimal.padded places n)), c :: rest) := by
  have hpart : ∀ d ∈ Decimal.trimZeros (Decimal.padded places n), d.isDigit = true := fun d hd =>
    Decimal.isDigit_of_mem_padded places n d (Decimal.mem_of_mem_trimZeros hd)
  rw [fraction, List.append_assoc]
  generalize Decimal.trimZeros (Decimal.padded places n) = part at hpart ⊢
  cases part with
  | nil => rw [List.nil_append, Decimal.number?_whole hne hwhole hc hpoint, Decimal.belowOne_nil, add_zero]
  | cons d ds => exact Decimal.number?_point hne hwhole (List.cons_ne_nil d ds) hpart hc rest

theorem nanosText_eq (nanos : Nat) : nanosText nanos =
    Decimal.digits (nanos / 10 ^ (unitOf nanos).places) ++
      fraction (unitOf nanos).places (nanos % 10 ^ (unitOf nanos).places) ++ (unitOf nanos).name :=
  rfl

theorem number?_nanosText (nanos : Nat) : Decimal.number? (nanosText nanos) =
    some ((nanos : ℚ) / 10 ^ (unitOf nanos).places, (unitOf nanos).name) := by
  obtain ⟨c, rest, hname, hc, hpoint⟩ := name_unitOf nanos
  have hne := Decimal.digits_ne_nil (nanos / 10 ^ (unitOf nanos).places)
  have hwhole := Decimal.isDigit_of_mem_digits (nanos / 10 ^ (unitOf nanos).places)
  rw [nanosText_eq, hname, number?_append_fraction hne hwhole hc hpoint, value_add_belowOne]

/-- Nothing is lost between a number of nanoseconds and its text. -/
theorem read?_nanosText (nanos : Nat) : read? (nanosText nanos) = some (nanos : ℚ) := by
  rw [read?, number?_nanosText]
  show (unitNanos? (unitOf nanos).name).bind _ = _
  rw [unitNanos?_unitOf]
  show some ((nanos : ℚ) / 10 ^ _ * 10 ^ _) = _
  rw [div_mul_cancel₀ _ (pow_ne_zero _ (by norm_num))]

theorem head_nanosText (nanos : Nat) : ∃ d ds, nanosText nanos = d :: ds ∧ d ≠ '-' := by
  obtain ⟨d, ds, hdigits, hd⟩ := Decimal.exists_digits_eq_cons (nanos / 10 ^ (unitOf nanos).places)
  refine ⟨d, _, by rw [nanosText_eq, hdigits, List.cons_append, List.cons_append], fun heq => ?_⟩
  rw [heq] at hd
  cases hd

end Duration

namespace Delay

/-- The number of nanoseconds that a text stands for, below zero behind a minus sign. -/
def read? : List Char → Option ℚ
  | '-' :: cs => (Duration.read? cs).map (- ·)
  | cs => Duration.read? cs

theorem text_of_neg {d : Delay} (h : d.nanos < 0) : d.text = '-' :: Duration.nanosText d.nanos.natAbs :=
  if_pos (decide_eq_true h)

theorem text_of_not_neg {d : Delay} (h : ¬ d.nanos < 0) : d.text = Duration.nanosText d.nanos.natAbs := by
  rw [text, isNegative, decide_eq_false h, if_neg Bool.false_ne_true]

theorem head_text (d : Delay) : d.text.head? = some '-' ↔ d.nanos < 0 := by
  by_cases h : d.nanos < 0
  · simp [text_of_neg h, h]
  · obtain ⟨c, cs, hmagnitude, hc⟩ := Duration.head_nanosText d.nanos.natAbs
    simp [text_of_not_neg h, hmagnitude, hc, h]

theorem read?_text (d : Delay) : read? d.text = some (d.nanos : ℚ) := by
  have hmagnitude := Duration.read?_nanosText d.nanos.natAbs
  by_cases h : d.nanos < 0
  · have hcast : (d.nanos.natAbs : ℚ) = -d.nanos := by rw [Nat.cast_natAbs, abs_of_neg h, Int.cast_neg]
    rw [text_of_neg h, read?, hmagnitude, Option.map_some, hcast, neg_neg]
  · have hcast : (d.nanos.natAbs : ℚ) = d.nanos := by rw [Nat.cast_natAbs, abs_of_nonneg (Int.not_lt.1 h)]
    obtain ⟨c, cs, htext, hc⟩ := Duration.head_nanosText d.nanos.natAbs
    rw [text_of_not_neg h, ← hcast, ← hmagnitude, htext]
    simp [read?, hc]

/-- The text of a delay is read back as exactly that delay, no other delay has it, and it begins with a minus sign for
delays below zero only. -/
theorem text_exact (d : Delay) : read? d.text = some (d.nanos : ℚ) ∧ (∀ e : Delay, e.text = d.text ↔ e = d) ∧
    (d.text.head? = some '-' ↔ d.nanos < 0) := by
  refine ⟨read?_text d, fun e => ⟨fun h => ?_, fun h => by rw [h]⟩, head_text d⟩
  have hread := read?_text e
  rw [h, read?_text d, Option.some.injEq, Int.cast_inj] at hread
  exact ext hread.symm

/-- The magnitude of the delay furthest below zero is no delay, and is written without loss all the same. -/
example : bottom.text = "-9223372036.854775808s".toList := by decide +kernel

end Delay

end VirtualMesh

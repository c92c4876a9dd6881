import Mathlib.Data.List.Induction
import Mathlib.Data.Rat.Cast.Defs
import Mathlib.Tactic.FieldSimp
import Mathlib.Tactic.Ring
import VirtualMesh.Decimal.Digits

/-!
# Decimal numbers

A number is written with a digit in front, which is zero only for zero itself. Zeros at the end of a fraction do not
count. A decimal number is read as a fraction of a power of ten, without rounding.
-/

namespace VirtualMesh.Decimal

/-! ## Digits -/

theorem isDigit_digitChar {d : Nat} (h : d < 10) : (digitChar d).isDigit = true := by
  have hall : ∀ d, d < 10 → (digitChar d).isDigit = true := by decide
  exact hall d h

theorem isDigit_of_mem_digits (n : Nat) : ∀ c ∈ digits n, c.isDigit = true := by
  induction n using Nat.strongRecOn with
  | _ n ih =>
    rw [digits]
    split
    · rename_i h
      exact List.forall_mem_singleton.2 (isDigit_digitChar h)
    · exact List.forall_mem_append.2 ⟨ih (n / 10) (by omega),
        List.forall_mem_singleton.2 (isDigit_digitChar (Nat.mod_lt _ (by decide)))⟩

theorem digits_ne_nil (n : Nat) : digits n ≠ [] := by
  rw [digits]
  split
  · exact List.cons_ne_nil _ _
  · exact List.append_ne_nil_of_right_ne_nil _ (List.cons_ne_nil _ _)

theorem exists_digits_eq_cons (n : Nat) : ∃ d ds, digits n = d :: ds ∧ d.isDigit = true := by
  obtain ⟨d, ds, hdigits⟩ := List.exists_cons_of_ne_nil (digits_ne_nil n)
  exact ⟨d, ds, hdigits, isDigit_of_mem_digits n d (by rw [hdigits]; exact List.mem_cons_self)⟩

/-- Only zero has a leading zero. -/
theorem head_digits {n : Nat} (h : 0 < n) : ∃ d ds, digits n = d :: ds ∧ d ≠ '0' := by
  induction n using Nat.strongRecOn with
  | _ n ih =>
    rw [digits]
    split
    · rename_i hlt
      have hall : ∀ d, d < 10 → 0 < d → digitChar d ≠ '0' := by decide
      exact ⟨_, [], rfl, hall n hlt h⟩
    · obtain ⟨d, ds, hds, hd⟩ := ih (n / 10) (by omega) (by omega)
      exact ⟨d, ds ++ [digitChar (n % 10)], by rw [hds]; rfl, hd⟩

theorem isDigit_of_mem_padded (width n : Nat) : ∀ c ∈ padded width n, c.isDigit = true := by
  induction width generalizing n with
  | zero => exact List.forall_mem_nil _
  | succ width ih =>
    exact List.forall_mem_append.2 ⟨ih (n / 10),
      List.forall_mem_singleton.2 (isDigit_digitChar (Nat.mod_lt _ (by decide)))⟩

theorem value_concat (ds : List Char) (c : Char) : value (ds ++ [c]) = 10 * value ds + digitValue c := by
  rw [value, List.foldl_append]
  rfl

theorem value_padded (width n : Nat) : value (padded width n) = n % 10 ^ width := by
  induction width generalizing n with
  | zero => rw [Nat.pow_zero, Nat.mod_one]; rfl
  | succ width ih =>
    rw [padded, value_concat, ih, digitValue_digitChar (Nat.mod_lt _ (by decide)), Nat.pow_succ,
      Nat.mul_comm (10 ^ width), Nat.mod_mul]
    omega

/-! ## Fractions -/

/-- The number below one that has these digits behind its point. -/
def belowOne (ds : List Char) : ℚ := value ds / 10 ^ ds.length

theorem belowOne_nil : belowOne [] = 0 := by
  have hzero : value [] = 0 := rfl
  rw [belowOne, hzero, Nat.cast_zero, zero_div]

theorem belowOne_concat_zero (ds : List Char) : belowOne (ds ++ ['0']) = belowOne ds := by
  have hzero : digitValue '0' = 0 := rfl
  rw [belowOne, belowOne, value_concat, hzero, List.length_append, List.length_singleton]
  push_cast
  field_simp
  ring

theorem trimZeros_concat (ds : List Char) (c : Char) :
    trimZeros (ds ++ [c]) = if c = '0' then trimZeros ds else ds ++ [c] := by
  rw [trimZeros, List.reverse_append]
  by_cases hc : c = '0' <;> simp [trimZeros, hc]

theorem belowOne_trimZeros (ds : List Char) : belowOne (trimZeros ds) = belowOne ds := by
  induction ds using List.reverseRecOn with
  | nil => rfl
  | append_singleton ds c ih =>
    rw [trimZeros_concat]
    split
    · rename_i hc
      rw [hc, ih, belowOne_concat_zero]
    · rfl

theorem mem_of_mem_trimZeros {ds : List Char} {c : Char} (h : c ∈ trimZeros ds) : c ∈ ds := by
  have hdrop := (List.dropWhile_suffix (· = '0')).subset (List.mem_reverse.1 h)
  exact List.mem_reverse.1 hdrop

/-! ## Reading -/

/-- The decimal number at the front of a text, and what stands behind it. A point has digits on both sides. -/
def number? (cs : List Char) : Option (ℚ × List Char) :=
  let whole := cs.takeWhile Char.isDigit
  if whole.isEmpty then none
  else
    match cs.dropWhile Char.isDigit with
    | '.' :: rest =>
      let part := rest.takeWhile Char.isDigit
      if part.isEmpty then none else some (value whole + belowOne part, rest.dropWhile Char.isDigit)
    | rest => some (value whole, rest)

section
variable {ds fs rest : List Char} {c : Char}

theorem takeWhile_isDigit (hds : ∀ d ∈ ds, d.isDigit = true) (hc : c.isDigit = false) (rest : List Char) :
    (ds ++ c :: rest).takeWhile Char.isDigit = ds := by
  rw [List.takeWhile_append_of_pos hds, List.takeWhile_cons_of_neg (by simp [hc]), List.append_nil]

theorem dropWhile_isDigit (hds : ∀ d ∈ ds, d.isDigit = true) (hc : c.isDigit = false) (rest : List Char) :
    (ds ++ c :: rest).dropWhile Char.isDigit = c :: rest := by
  rw [List.dropWhile_append_of_pos hds, List.dropWhile_cons_of_neg (by simp [hc])]

theorem number?_whole (hne : ds ≠ []) (hds : ∀ d ∈ ds, d.isDigit = true) (hc : c.isDigit = false) (hpoint : c ≠ '.')
    (rest : List Char) : number? (ds ++ c :: rest) = some ((value ds : ℚ), c :: rest) := by
  simp [number?, takeWhile_isDigit hds hc, dropWhile_isDigit hds hc, hne, hpoint]

theorem number?_point (hne : ds ≠ []) (hds : ∀ d ∈ ds, d.isDigit = true) (hne' : fs ≠ [])
    (hfs : ∀ d ∈ fs, d.isDigit = true) (hc : c.isDigit = false) (rest : List Char) :
    number? (ds ++ '.' :: (fs ++ c :: rest)) = some (value ds + belowOne fs, c :: rest) := by
  have hdot : ('.' : Char).isDigit = false := rfl
  simp [number?, takeWhile_isDigit hds hdot, dropWhile_isDigit hds hdot, takeWhile_isDigit hfs hc,
    dropWhile_isDigit hfs hc, hne, hne']

end

end VirtualMesh.Decimal

import VirtualMesh.Decimal.Digits
import VirtualMesh.Power

/-!
# Byte strings

Messages, states and keys are byte strings. They are shown in lowercase hexadecimal, and whole
numbers travel in them with the most significant byte first.
-/

namespace VirtualMesh

abbrev Bytes := List UInt8

namespace Hex

/-- The lowercase hexadecimal character of a number below sixteen. -/
def char (d : Nat) : Char := if d < 10 then Char.ofNat (48 + d) else Char.ofNat (87 + d)

def value? (c : Char) : Option Nat :=
  if '0' ≤ c ∧ c ≤ '9' then some (c.toNat - 48)
  else if 'a' ≤ c ∧ c ≤ 'f' then some (c.toNat - 87)
  else if 'A' ≤ c ∧ c ≤ 'F' then some (c.toNat - 55)
  else none

theorem value?_char {d : Nat} (h : d < 16) : value? (char d) = some d := by
  have : ∀ d, d < 16 → value? (char d) = some d := by decide
  exact this d h

/-- Exactly `width` hexadecimal digits of `n`. -/
def padded : Nat → Nat → List Char
  | 0, _ => []
  | width + 1, n => padded width (n / 16) ++ [char (n % 16)]

/-- The number that a list of hexadecimal digits in either case stands for. -/
def number? (cs : List Char) : Option Nat :=
  cs.foldlM (fun v c => (value? c).map (16 * v + ·)) 0

def bytesText (bs : Bytes) : List Char := bs.flatMap fun b => padded 2 b.toNat

/-- Two digits for every byte; an odd digit at the end belongs to no byte. -/
def bytes? : List Char → Option Bytes
  | [] => some []
  | [_] => none
  | a :: b :: rest => do
    let high ← value? a
    let low ← value? b
    return UInt8.ofNat (16 * high + low) :: (← bytes? rest)

end Hex

namespace BigEndian

/-- The last `width` base-256 digits of `n`, most significant first. -/
def encode : Nat → Nat → Bytes
  | 0, _ => []
  | width + 1, n => encode width (n / 256) ++ [UInt8.ofNat (n % 256)]

def decode (bs : Bytes) : Nat := bs.foldl (fun v b => 256 * v + b.toNat) 0

theorem length_encode (width n : Nat) : (encode width n).length = width := by
  induction width generalizing n with
  | zero => rfl
  | succ w ih => simp [encode, ih]

theorem decode_encode (width n : Nat) : decode (encode width n) = n % Nat.pow 256 width := by
  rw [Nat.pow_eq]
  induction width generalizing n with
  | zero => simp [encode, decode, Nat.mod_one]
  | succ w ih =>
    have hw := ih (n / 256)
    simp only [decode] at hw
    simp only [encode, decode, List.foldl_append, hw, List.foldl_cons, List.foldl_nil]
    rw [UInt8.toNat_ofNat', Nat.mod_mod, Nat.pow_succ, Nat.mul_comm (256 ^ w), Nat.mod_mul]
    omega

end BigEndian

end VirtualMesh

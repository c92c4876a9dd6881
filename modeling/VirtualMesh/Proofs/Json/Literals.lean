import Mathlib.Algebra.Group.Nat.Defs
import VirtualMesh.Proofs.Json.Grammar

/-!
# Spelling

A literal is read as the text that it spells, and every text is spelled by the form in which it is written. A literal
of any kind may stand where nobody reads it.
-/

namespace VirtualMesh

namespace Hex

theorem number?_append (cs ds : List Char) :
    number? (cs ++ ds) = (number? cs).bind fun v => ds.foldlM (fun v c => (value? c).map (16 * v + ·)) v := by
  rw [number?, number?, List.foldlM_append]
  rfl

theorem number?_padded (width n : Nat) : number? (padded width n) = some (n % 16 ^ width) := by
  induction width generalizing n with
  | zero => simp [padded, number?, Nat.mod_one]
  | succ w ih =>
    have hlast := value?_char (Nat.mod_lt n (show 16 > 0 by decide))
    rw [padded, number?_append, ih]
    simp only [Option.bind_some, List.foldlM_cons, List.foldlM_nil, hlast, Option.map_some, pure, bind]
    rw [Nat.pow_succ, Nat.mul_comm (16 ^ w), Nat.mod_mul]
    congr 1
    omega

theorem length_padded (width n : Nat) : (padded width n).length = width := by
  induction width generalizing n with
  | zero => rfl
  | succ w ih => simp [padded, ih]

end Hex

namespace Json

variable {cs raw : List Char} {ps : List Piece}

/-! ## Pieces -/

theorem pieces?_plain {c : Char} (hc : IsPlain c) (raw : List Char) :
    pieces? (c :: raw) = (pieces? raw).map (.plain c :: ·) := by
  have hne := hc.2.2
  rw [pieces?]
  · exact bind_pure_comp _ _
  all_goals simp [hne]

theorem pieces?_escaped {e c : Char} (h : (e, c) ∈ shortEscapes) (raw : List Char) :
    pieces? ('\\' :: e :: raw) = (pieces? raw).map (.escaped c :: ·) := by
  have hread : unescape? e = some c ∧ e ≠ 'u' := by
    simp only [shortEscapes, List.mem_cons, List.not_mem_nil, or_false, Prod.mk.injEq] at h
    rcases h with ⟨rfl, rfl⟩ | ⟨rfl, rfl⟩ | ⟨rfl, rfl⟩ | ⟨rfl, rfl⟩ | ⟨rfl, rfl⟩ | ⟨rfl, rfl⟩ | ⟨rfl, rfl⟩ | ⟨rfl, rfl⟩
    all_goals exact ⟨rfl, by decide⟩
  rw [pieces?, hread.1]
  · exact bind_pure_comp (m := Option) _ _
  · simp [hread.2]

theorem pieces?_unit {a b c d : Char} {u : Nat} (h : Hex.number? [a, b, c, d] = some u) (raw : List Char) :
    pieces? ('\\' :: 'u' :: a :: b :: c :: d :: raw) = (pieces? raw).map (.unit u :: ·) := by
  rw [pieces?, h]
  exact bind_pure_comp (m := Option) _ _

theorem text?_plain {c : Char} (hc : IsPlain c) (ps : List Piece) :
    text? (.plain c :: ps) = (text? ps).map (c :: ·) := by
  have hcontrol : isControl c = false := decide_eq_false (Nat.not_lt.2 hc.1)
  rw [text?, hcontrol]
  exact bind_pure_comp _ _

theorem text?_escaped (c : Char) (ps : List Piece) : text? (.escaped c :: ps) = (text? ps).map (c :: ·) := by
  rw [text?]
  exact bind_pure_comp _ _

/-- A code unit that is no half of a pair stands for itself, whatever comes after it. -/
theorem text?_unit {u : Nat} (hu : u < 0xd800 ∨ 0xe000 ≤ u) (ps : List Piece) :
    text? (.unit u :: ps) = (text? ps).map (Char.ofNat u :: ·) := by
  have hhigh : isHigh u = false := by simp [isHigh]; omega
  have hlow : isLow u = false := by simp [isLow]; omega
  by_cases hnext : ∃ v rest, ps = .unit v :: rest
  · obtain ⟨v, rest, rfl⟩ := hnext
    rw [text?, hhigh, hlow]
    exact bind_pure_comp _ _
  · rw [text?, hhigh, hlow]
    · exact bind_pure_comp _ _
    · exact fun v rest heq => hnext ⟨v, rest, heq⟩

theorem text?_pair {u v : Nat} (hu : 0xd800 ≤ u ∧ u < 0xdc00) (hv : 0xdc00 ≤ v ∧ v < 0xe000) (ps : List Piece) :
    text? (.unit u :: .unit v :: ps) =
      (text? ps).map (Char.ofNat (0x10000 + (u - 0xd800) * 0x400 + (v - 0xdc00)) :: ·) := by
  have hhigh : isHigh u = true := by simpa [isHigh] using hu
  have hlow : isLow v = true := by simpa [isLow] using hv
  rw [text?, hhigh, hlow]
  exact bind_pure_comp _ _

/-! ## Spelled and written -/

namespace Spelling

theorem literalText? (h : Spelling cs raw) : literalText? raw = some cs := by
  have hpieces : ∃ ps, pieces? raw = some ps ∧ text? ps = some cs := by
    induction h with
    | nil => exact ⟨[], rfl, rfl⟩
    | plain hc _ ih =>
      obtain ⟨ps, hps, htext⟩ := ih
      exact ⟨_, by rw [pieces?_plain hc, hps]; rfl, by rw [text?_plain hc, htext]; rfl⟩
    | escaped hc _ ih =>
      obtain ⟨ps, hps, htext⟩ := ih
      exact ⟨_, by rw [pieces?_escaped hc, hps]; rfl, by rw [text?_escaped, htext]; rfl⟩
    | unit hu hrange _ ih =>
      obtain ⟨ps, hps, htext⟩ := ih
      exact ⟨_, by rw [pieces?_unit hu, hps]; rfl, by rw [text?_unit hrange, htext]; rfl⟩
    | pair hu hu₁ hu₂ hv hv₁ hv₂ _ ih =>
      obtain ⟨ps, hps, htext⟩ := ih
      exact ⟨_, by rw [pieces?_unit hu, pieces?_unit hv, hps]; rfl,
        by rw [text?_pair ⟨hu₁, hu₂⟩ ⟨hv₁, hv₂⟩, htext]; rfl⟩
  obtain ⟨ps, hps, htext⟩ := hpieces
  rw [Json.literalText?, hps]
  exact htext

theorem literal (h : Spelling cs raw) : Literal raw := by
  induction h with
  | nil => exact .nil
  | plain hc _ ih => exact .plain hc ih
  | escaped hc _ ih => exact .escaped hc ih
  | unit hu _ _ ih => exact .unit hu ih
  | pair hu _ _ hv _ _ _ ih => exact .unit hu (.unit hv ih)

end Spelling

theorem Literal.isSkippable (h : Literal raw) : isSkippable raw = true := by
  have hpieces : ∃ ps, pieces? raw = some ps ∧ ps.all Piece.isSkippable = true := by
    induction h with
    | nil => exact ⟨[], rfl, rfl⟩
    | @plain c _ hc _ ih =>
      obtain ⟨ps, hps, hall⟩ := ih
      have hcontrol : isControl c = false := decide_eq_false (Nat.not_lt.2 hc.1)
      exact ⟨_, by rw [pieces?_plain hc, hps]; rfl, by rw [List.all_cons, hall, Piece.isSkippable, hcontrol]; rfl⟩
    | escaped hc _ ih =>
      obtain ⟨ps, hps, hall⟩ := ih
      exact ⟨_, by rw [pieces?_escaped hc, hps]; rfl, by rw [List.all_cons, hall]; rfl⟩
    | unit hu _ ih =>
      obtain ⟨ps, hps, hall⟩ := ih
      exact ⟨_, by rw [pieces?_unit hu, hps]; rfl, by rw [List.all_cons, hall]; rfl⟩
  obtain ⟨ps, hps, hall⟩ := hpieces
  rw [Json.isSkippable, hps]
  exact hall

theorem spelling_escape_append {c : Char} (h : Spelling cs raw) : Spelling (c :: cs) (escape c ++ raw) := by
  have hofNat : ∀ {n}, c.toNat = n → c = Char.ofNat n := fun hn => by rw [← hn, Char.ofNat_toNat]
  unfold escape
  -- seven characters have a letter of their own, other control characters are written as units, the rest as they are
  split
  case isTrue hc => exact .escaped (by simp [shortEscapes, hc]) h
  case isFalse hquote =>
  split
  case isTrue hc => exact .escaped (by simp [shortEscapes, hc]) h
  case isFalse hbackslash =>
  split
  case isTrue hc => exact .escaped (by simp [shortEscapes, hofNat hc]) h
  case isFalse =>
  split
  case isTrue hc => exact .escaped (by simp [shortEscapes, hofNat hc]) h
  case isFalse =>
  split
  case isTrue hc => exact .escaped (by simp [shortEscapes, hofNat hc]) h
  case isFalse =>
  split
  case isTrue hc => exact .escaped (by simp [shortEscapes, hofNat hc]) h
  case isFalse =>
  split
  case isTrue hc => exact .escaped (by simp [shortEscapes, hofNat hc]) h
  case isFalse =>
  split
  case isTrue hc =>
    have hlt : c.toNat < 32 := of_decide_eq_true hc
    have hnumber := Hex.number?_padded 4 c.toNat
    rw [Nat.mod_eq_of_lt (by omega)] at hnumber
    have hunit := Spelling.unit hnumber (.inl (by omega)) h
    rwa [Char.ofNat_toNat] at hunit
  case isFalse hc => exact .plain ⟨Nat.not_lt.1 fun hlt => hc (decide_eq_true hlt), hquote, hbackslash⟩ h

/-- Every text is spelled by the form in which it is written. -/
theorem spelling_escape (cs : List Char) : Spelling cs (cs.flatMap escape) := by
  induction cs with
  | nil => exact .nil
  | cons c cs ih => exact spelling_escape_append ih

end Json

end VirtualMesh

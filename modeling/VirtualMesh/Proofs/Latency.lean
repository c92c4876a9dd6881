import VirtualMesh.Latency

/-!
# Delays without spread

A link without latency delays nothing, whatever is drawn, and a link without jitter delays all
messages by the same time. Both are statements about rounded arithmetic: a product with zero is a
zero of either sign or no number, and neither changes what it is added to, except that a sum with
no number is no number and counts as zero.
-/

namespace VirtualMesh

open Float.Model (UnpackedFloat)

/-- A double taken apart. -/
def parts (x : Float) : UnpackedFloat := x.toModel.unpack

/-- A zero of either sign, or no number. -/
def IsNull (x : Float) : Prop := parts x = .notANumber ∨ ∃ sign, parts x = .zero sign

theorem parts_mul (x y : Float) : parts (x * y) =
    (Float.Model.pack (.mul .binary64 (parts x) (parts y))).unpack := rfl

theorem parts_add (x y : Float) : parts (x + y) =
    (Float.Model.pack (.add .binary64 (parts x) (parts y))).unpack := rfl

theorem unpack_pack_notANumber : (Float.Model.pack .notANumber).unpack = .notANumber := rfl

theorem unpack_pack_zero (sign : Float.Model.UnpackedFloat.Sign) :
    (Float.Model.pack (.zero sign)).unpack = .zero sign := by
  cases sign <;> rfl

theorem parts_zero : parts 0 = .zero .positive := rfl

theorem IsNull.mul_left {x : Float} (hx : IsNull x) (y : Float) : IsNull (x * y) := by
  unfold IsNull
  rw [parts_mul]
  rcases hx with hx | ⟨sign, hx⟩
  · rw [hx]
    exact .inl unpack_pack_notANumber
  · rw [hx]
    cases parts y with
    | infinity | notANumber => exact .inl unpack_pack_notANumber
    | zero | finite => exact .inr ⟨_, unpack_pack_zero _⟩

theorem IsNull.mul_right {x : Float} (hx : IsNull x) (y : Float) : IsNull (y * x) := by
  unfold IsNull
  rw [parts_mul]
  rcases hx with hx | ⟨sign, hx⟩
  · rw [hx]
    cases parts y <;> exact .inl unpack_pack_notANumber
  · rw [hx]
    cases parts y with
    | infinity | notANumber => exact .inl unpack_pack_notANumber
    | zero | finite => exact .inr ⟨_, unpack_pack_zero _⟩

theorem IsNull.add {x y : Float} (hx : IsNull x) (hy : IsNull y) : IsNull (x + y) := by
  unfold IsNull
  rw [parts_add]
  rcases hx with hx | ⟨s, hx⟩
  · rw [hx]
    exact .inl unpack_pack_notANumber
  · rcases hy with hy | ⟨t, hy⟩
    · rw [hx, hy]
      exact .inl unpack_pack_notANumber
    · rw [hx, hy]
      cases s <;> cases t <;> exact .inr ⟨_, unpack_pack_zero _⟩

theorem Delay.ofFloat_of_isNull {x : Float} (hx : IsNull x) : ofFloat x = .zero := by
  have hlt : ¬ x < 0 := by
    intro h
    have hless : (parts x).lt (parts 0) = true := of_decide_eq_true h
    rw [parts_zero] at hless
    rcases hx with hx | ⟨sign, hx⟩ <;> rw [hx] at hless <;> cases hless
  have hcut : x.toUInt64 = 0 := by
    show (parts x).toUInt64 = 0
    rcases hx with hx | ⟨sign, hx⟩ <;> rw [hx] <;> rfl
  rw [ofFloat, if_neg hlt, hcut]
  ext
  rw [nanos_ofInt]
  decide

theorem Binary64.parts_toFloat_of_isZero {x : Binary64} (hx : x.isZero = true) :
    ∃ sign, parts x.toFloat = .zero sign := by
  obtain ⟨bits⟩ := x
  obtain ⟨hexponent, hfraction⟩ : bits.toNat / 2 ^ 52 % 2 ^ 11 = 0 ∧ bits.toNat % 2 ^ 52 = 0 := by
    obtain ⟨hexponent, hfraction⟩ := Bool.and_eq_true_iff.1 hx
    exact ⟨of_decide_eq_true hexponent, of_decide_eq_true hfraction⟩
  have hlt := bits.toNat_lt
  have hbits : bits.toNat = (0 : UInt64).toNat ∨ bits.toNat = (0x8000000000000000 : UInt64).toNat := by
    show bits.toNat = 0 ∨ bits.toNat = 9223372036854775808
    omega
  rcases hbits with h | h
  · rw [UInt64.toNat_inj.1 h]
    exact ⟨.positive, rfl⟩
  · rw [UInt64.toNat_inj.1 h]
    exact ⟨.negative, rfl⟩

namespace Latency

/-- Without latency there is no delay. -/
theorem delay_of_mean_eq_zero {l : Latency} (hl : l.mean.nanos = 0) (z : Float) : l.delay z = .zero := by
  have hmean : IsNull (Binary64.nearest l.mean.nanos) := by
    rw [hl]
    exact .inr ⟨.positive, rfl⟩
  exact Delay.ofFloat_of_isNull (hmean.add ((hmean.mul_right _).mul_left z))

/-- Without jitter all numbers give the same delay. -/
theorem delay_eq_of_jitter_isZero {l : Latency} (hl : l.jitter.isZero = true) {y z : Float}
    (hy : y.isFinite = true) (hz : z.isFinite = true) : l.delay y = l.delay z := by
  obtain ⟨sign, hj⟩ := Binary64.parts_toFloat_of_isZero hl
  have hnull : IsNull l.jitter.toFloat := .inr ⟨sign, hj⟩
  simp only [delay]
  generalize Binary64.nearest l.mean.nanos = m
  cases hm : parts m with
  | notANumber =>
    have hnone : IsNull m := .inl hm
    have hdelay : ∀ x, Delay.ofFloat (m + l.jitter.toFloat * m * x) = .zero := fun x =>
      Delay.ofFloat_of_isNull (hnone.add ((hnull.mul_left m).mul_left x))
    rw [hdelay, hdelay]
  | zero s =>
    have hzero : IsNull m := .inr ⟨s, hm⟩
    have hdelay : ∀ x, Delay.ofFloat (m + l.jitter.toFloat * m * x) = .zero := fun x =>
      Delay.ofFloat_of_isNull (hzero.add ((hnull.mul_left m).mul_left x))
    rw [hdelay, hdelay]
  | infinity s =>
    -- Zero times an infinity is no number, and so is all that is made of it.
    have hproduct : parts (l.jitter.toFloat * m) = .notANumber := by
      rw [parts_mul, hj, hm]
      exact unpack_pack_notANumber
    have hdelay : ∀ x, Delay.ofFloat (m + l.jitter.toFloat * m * x) = .zero := by
      intro x
      refine Delay.ofFloat_of_isNull (.inl ?_)
      have hspread : parts (l.jitter.toFloat * m * x) = .notANumber := by
        rw [parts_mul, hproduct]
        exact unpack_pack_notANumber
      rw [parts_add, hspread, hm]
      exact unpack_pack_notANumber
    rw [hdelay, hdelay]
  | finite s n e hn =>
    have hproduct : parts (l.jitter.toFloat * m) = .zero (sign * s) := by
      rw [parts_mul, hj, hm]
      exact unpack_pack_zero _
    have hsum : ∀ x : Float, x.isFinite = true →
        m + l.jitter.toFloat * m * x = .ofModel (.pack (.finite s n e hn)) := by
      intro x hx
      have hspread : ∃ t, parts (l.jitter.toFloat * m * x) = .zero t := by
        rw [parts_mul, hproduct]
        change (parts x).isFinite = true at hx
        cases hp : parts x with
        | zero | finite => exact ⟨_, unpack_pack_zero _⟩
        | infinity | notANumber => rw [hp] at hx; cases hx
      obtain ⟨t, ht⟩ := hspread
      show Float.ofModel (.pack (.add .binary64 (parts m) (parts (l.jitter.toFloat * m * x)))) = _
      rw [ht, hm]
      rfl
    rw [hsum y hy, hsum z hz]

end Latency

end VirtualMesh

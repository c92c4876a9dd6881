import Mathlib.Algebra.Group.Nat.Defs
import Mathlib.Data.List.Induction
import VirtualMesh.Proofs.Gossip

/-!
# The wire format

On the wire a decision is its height in eight bytes, and its state behind them. Every byte string that is long enough
to hold a height is such a message, of one height and one state only, and a shorter one is refused: the empty one
for being empty, the others for being of no known type.
-/

namespace VirtualMesh

namespace BigEndian

theorem decode_concat (bs : Bytes) (b : UInt8) : decode (bs ++ [b]) = 256 * decode bs + b.toNat := by
  rw [decode, List.foldl_append]
  rfl

theorem decode_lt (bs : Bytes) : decode bs < 256 ^ bs.length := by
  induction bs using List.reverseRecOn with
  | nil => exact Nat.one_pos
  | append_singleton bs b ih =>
    have hb : b.toNat < 256 := b.toNat_lt
    rw [decode_concat, List.length_append, List.length_singleton, Nat.pow_succ]
    omega

theorem encode_decode (bs : Bytes) : encode bs.length (decode bs) = bs := by
  induction bs using List.reverseRecOn with
  | nil => rfl
  | append_singleton bs b ih =>
    have hb : b.toNat < 256 := b.toNat_lt
    have hdiv : (256 * decode bs + b.toNat) / 256 = decode bs := by omega
    have hmod : (256 * decode bs + b.toNat) % 256 = b.toNat := by omega
    rw [decode_concat, List.length_append, List.length_singleton, encode, hdiv, hmod, ih, UInt8.ofNat_toNat]

end BigEndian

namespace GossipEngine

variable {m : Bytes} {h : Height} {s : State} {error : ConsensusError}

theorem decode_of_length (hm : 8 ≤ m.length) :
    decode m = .ok (⟨UInt64.ofNat (BigEndian.decode (m.take 8))⟩, ⟨m.drop 8⟩) := by
  have hnonempty : m.isEmpty = false := by
    cases m with
    | nil => cases hm
    | cons => rfl
  rw [decode, hnonempty, if_neg Bool.false_ne_true, if_neg (Nat.not_lt.2 hm)]

theorem decode_eq_error : decode m = .error error ↔
    m.length < 8 ∧ error = if m = [] then .messageIsEmpty else .messageUnknownMessageType := by
  rcases Nat.lt_or_ge m.length 8 with hm | hm
  · cases m with
    | nil => simp [decode, eq_comm]
    | cons b bs =>
      rw [decode, List.isEmpty_cons, if_neg Bool.false_ne_true, if_pos hm, if_neg (List.cons_ne_nil b bs)]
      simp only [hm, true_and, Except.error.injEq, eq_comm]
  · rw [decode_of_length hm]
    simp only [reduceCtorEq, false_iff]
    omega

theorem toNat_head (hm : 8 ≤ m.length) :
    (UInt64.ofNat (BigEndian.decode (m.take 8))).toNat = BigEndian.decode (m.take 8) := by
  have hlt := BigEndian.decode_lt (m.take 8)
  rw [List.length_take, Nat.min_eq_left hm] at hlt
  exact UInt64.toNat_ofNat_of_lt' hlt

theorem encode_of_decode (hm : decode m = .ok (h, s)) : encode h s = m := by
  rcases Nat.lt_or_ge m.length 8 with hlt | hlong
  · rw [decode_eq_error.2 ⟨hlt, rfl⟩] at hm
    cases hm
  · rw [decode_of_length hlong] at hm
    cases hm
    have hhead := BigEndian.encode_decode (m.take 8)
    rw [List.length_take, Nat.min_eq_left hlong] at hhead
    rw [encode, toNat_head hlong, hhead, List.take_append_drop]

/-- What was written is read back, every message that is long enough was written, and only the others are refused. -/
theorem wire_bijective :
    (∀ (h : Height) (s : State), decode (encode h s) = .ok (h, s)) ∧
    (∀ m : Bytes, 8 ≤ m.length → ∃ h s, decode m = .ok (h, s) ∧ encode h s = m) ∧
    (∀ m : Bytes, (∃ error, decode m = .error error) ↔ m.length < 8) ∧
    ∀ (m : Bytes) (error : ConsensusError), decode m = .error error →
      error = if m = [] then .messageIsEmpty else .messageUnknownMessageType := by
  refine ⟨decode_encode, fun m hm => ?_, fun m => ?_, fun m error hm => (decode_eq_error.1 hm).2⟩
  · have hread := decode_of_length hm
    exact ⟨_, _, hread, encode_of_decode hread⟩
  · constructor
    · rintro ⟨error, hm⟩
      exact (decode_eq_error.1 hm).1
    · intro hm
      exact ⟨_, decode_eq_error.2 ⟨hm, rfl⟩⟩

/-- The shortest message holds a height and no state; with a byte less it is none. -/
theorem wire_bijective_shortest :
    (∃ h s, decode (List.replicate 8 255) = .ok (h, s) ∧ encode h s = List.replicate 8 255 ∧
      h = ⟨18446744073709551615⟩ ∧ s = .empty) ∧
    decode (List.replicate 7 255) = .error .messageUnknownMessageType ∧ decode [] = .error .messageIsEmpty := by
  obtain ⟨-, hread, hrefused, hcause⟩ := wire_bijective
  refine ⟨?_, ?_, ?_⟩
  · obtain ⟨h, s, hm, hsame⟩ := hread (List.replicate 8 255) (by decide)
    have hvalue : decode (List.replicate 8 255) = .ok (⟨18446744073709551615⟩, .empty) := rfl
    cases hm.symm.trans hvalue
    exact ⟨_, _, hm, hsame, rfl, rfl⟩
  · obtain ⟨error, hm⟩ := (hrefused (List.replicate 7 255)).2 (by decide)
    rw [hm, hcause _ _ hm]
    rfl
  · obtain ⟨error, hm⟩ := (hrefused []).2 (by decide)
    rw [hm, hcause _ _ hm]
    rfl

end GossipEngine

end VirtualMesh

import VirtualMesh.Engine.Basic

/-!
# What gossip engines make of messages and proposals

A message gives back the height and the state that were put into it. An engine takes them over if
the height is greater than its own, and raises its height by one if it proposes.
-/

namespace VirtualMesh

theorem Height.le_def {h k : Height} : h ≤ k ↔ h.value.toNat ≤ k.value.toNat := UInt64.le_iff_toNat_le

theorem Height.le_rfl (h : Height) : h ≤ h := UInt64.le_refl _

theorem Height.next_eq_ok {h k : Height} : h.next = .ok k ↔ k.value.toNat = h.value.toNat + 1 := by
  rw [← addCount_eq_ok]
  unfold next
  cases hadd : addCount h.value 1 with
  | error f => simp [Except.map]
  | ok c =>
    obtain ⟨v⟩ := k
    simp [Except.map]

namespace GossipEngine

theorem decode_encode (h : Height) (s : State) : decode (encode h s) = .ok (h, s) := by
  have hlength : (BigEndian.encode 8 h.value.toNat).length = 8 := BigEndian.length_encode ..
  have hvalue : UInt64.ofNat (BigEndian.decode (BigEndian.encode 8 h.value.toNat)) = h.value := by
    have hlt : h.value.toNat < Nat.pow 256 8 := h.value.toNat_lt
    rw [BigEndian.decode_encode, Nat.mod_eq_of_lt hlt, UInt64.ofNat_toNat]
  have hnonempty : (encode h s).isEmpty = false := by
    rw [List.isEmpty_eq_false_iff, encode]
    intro hnil
    simp [(List.append_eq_nil_iff.1 hnil).1] at hlength
  have hlong : ¬ (encode h s).length < 8 := by
    rw [encode, List.length_append, hlength]
    omega
  have htake : (encode h s).take 8 = BigEndian.encode 8 h.value.toNat := by
    rw [encode, List.take_append_of_le_length (by omega), List.take_of_length_le (by omega)]
  have hdrop : (encode h s).drop 8 = s.bytes := by
    rw [encode, List.drop_append_of_le_length (by omega), List.drop_of_length_le (by omega),
      List.nil_append]
  rw [decode, hnonempty, if_neg (by simp), if_neg hlong, htake, hdrop, hvalue]

theorem decided_receive (e : GossipEngine) (h : Height) (s : State) :
    (e.receive (encode h s)).1.decided = if h ≤ e.decided.height then e.decided else ⟨h, .zero, s⟩ := by
  rw [receive, adopt, decode_encode]
  by_cases hle : h ≤ e.decided.height
  · simp only [hle, if_true]
  · simp only [hle, if_false]

theorem links_receive (e : GossipEngine) (message : Bytes) : (e.receive message).1.links = e.links := by
  unfold receive
  split <;> rfl

theorem propose_eq_ok {e e' : GossipEngine} {alive : Nat → Bool} {s : State} {outgoing : List Outgoing} :
    e.propose alive s = .ok (e', outgoing) ↔ ∃ h, e.decided.height.next = .ok h ∧
      e' = { e with decided := ⟨h, .zero, s⟩, links := e.links.filter alive } ∧
      outgoing = (e.links.filter alive).map fun l => ⟨l, encode h s⟩ := by
  unfold propose
  cases hnext : e.decided.height.next with
  | error f => simp
  | ok h =>
    simp only [Except.ok.injEq, Prod.mk.injEq, exists_eq_left']
    exact and_congr eq_comm eq_comm

end GossipEngine

theorem Engine.propose_gossip_eq_ok {e : GossipEngine} {y : Engine} {alive : Nat → Bool} {s : State}
    {outgoing : List Outgoing} : Consensus.propose (Engine.gossip e) alive s = .ok (y, outgoing) ↔
      ∃ h, e.decided.height.next = .ok h ∧
        y = .gossip { e with decided := ⟨h, .zero, s⟩, links := e.links.filter alive } ∧
        outgoing = (e.links.filter alive).map fun l => ⟨l, GossipEngine.encode h s⟩ := by
  change (e.propose alive s).map _ = _ ↔ _
  constructor
  · intro h
    cases hpropose : e.propose alive s with
    | error f =>
      rw [hpropose] at h
      cases h
    | ok r =>
      rw [hpropose] at h
      cases h
      obtain ⟨k, hnext, hr, hsent⟩ := GossipEngine.propose_eq_ok.1 hpropose
      exact ⟨k, hnext, congrArg Engine.gossip hr, hsent⟩
  · rintro ⟨h, hnext, rfl, rfl⟩
    rw [GossipEngine.propose_eq_ok.2 ⟨h, hnext, rfl, rfl⟩]
    rfl

end VirtualMesh

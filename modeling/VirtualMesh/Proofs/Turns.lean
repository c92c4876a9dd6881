import VirtualMesh.Proofs.Receiving
import VirtualMesh.Proofs.Stats

/-!
# Turns of a gossip engine

Messages, updates, proposals and new links come to an engine in any order, while links end behind its back. What it
floods are the links that were attached and have not ended, as often and in the order in which they were attached. Its
height is bounded by the heights that it was sent and the number of its proposals, and it can propose unless this height
is the last that there is.
-/

namespace VirtualMesh

/-- What happens to a gossip engine, or to the links that it may hold. -/
inductive Turn where
  | receive (message : Bytes)
  | update
  | propose (state : State)
  | attach (links : List Nat)
  /-- The last handle on a link is dropped. -/
  | drop (link : Nat)

namespace Turn

def message? : Turn → Option Bytes
  | .receive m => some m
  | _ => none

def isProposal : Turn → Bool
  | .propose _ => true
  | _ => false

def links : Turn → List Nat
  | .attach ls => ls
  | _ => []

def dropped? : Turn → Option Nat
  | .drop l => some l
  | _ => none

end Turn

def received (ts : List Turn) : List Bytes := ts.filterMap Turn.message?

/-- All links that are attached, as often and in the order in which they are. -/
def entries (ts : List Turn) : List Nat := ts.flatMap Turn.links

def dropped (ts : List Turn) : List Nat := ts.filterMap Turn.dropped?

def countProposals (ts : List Turn) : Nat := ts.countP Turn.isProposal

section
variable (ts : List Turn) (t : Turn)

theorem received_concat : received (ts ++ [t]) = received ts ++ t.message?.toList := by
  rw [received, List.filterMap_append]
  cases ht : t.message? <;> simp [ht, received]

theorem entries_concat : entries (ts ++ [t]) = entries ts ++ t.links := by
  rw [entries, List.flatMap_append, List.flatMap_singleton, entries]

theorem dropped_concat : dropped (ts ++ [t]) = dropped ts ++ t.dropped?.toList := by
  rw [dropped, List.filterMap_append]
  cases ht : t.dropped? <;> simp [ht, dropped]

theorem countProposals_concat : countProposals (ts ++ [t]) = countProposals ts + if t.isProposal then 1 else 0 := by
  rw [countProposals, List.countP_append, countProposals]
  cases ht : t.isProposal <;> simp [ht]

end

/-- A way to take up a state, given which links still exist. -/
abbrev Proposer := GossipEngine → (Nat → Bool) → State → Except Fault (GossipEngine × List Outgoing)

/-- A gossip engine, with the links that have ended. -/
structure Hosted where
  engine : GossipEngine
  gone : List Nat

namespace Hosted

def fresh (key : PublicKey) : Hosted := ⟨.initial key, []⟩

def alive (x : Hosted) (link : Nat) : Bool := link ∉ x.gone

/-- The attached links that have not ended, in order. -/
def live (x : Hosted) : List Nat := x.engine.links.filter x.alive

def attached (x : Hosted) : Nat := x.engine.attached x.alive

/-- What is sent in a turn, and what it leaves behind. A proposal that faults leaves all as it was. -/
def turn (propose : Proposer) (x : Hosted) : Turn → Except Fault (List Outgoing) × Hosted
  | .receive m => (.ok [], { x with engine := (x.engine.receive m).1 })
  | .update => (.ok [], { x with engine := x.engine.update.1 })
  | .propose s =>
    match propose x.engine x.alive s with
    | .error f => (.error f, x)
    | .ok (e, sent) => (.ok sent, { x with engine := e })
  | .attach ls => (.ok [], { x with engine := x.engine.attach ls })
  | .drop l => (.ok [], { x with gone := x.gone ++ [l] })

def after (propose : Proposer) (x : Hosted) (ts : List Turn) : Hosted := ts.foldl (fun x t => (x.turn propose t).2) x

theorem after_concat (propose : Proposer) (x : Hosted) (ts : List Turn) (t : Turn) :
    x.after propose (ts ++ [t]) = ((x.after propose ts).turn propose t).2 := by
  rw [after, List.foldl_append]
  rfl

theorem attached_eq_length (x : Hosted) : x.attached = x.live.length := List.countP_eq_length_filter

end Hosted

theorem Height.next_cases (h : Height) :
    (∃ k, h.next = .ok k ∧ k.value.toNat = h.value.toNat + 1) ∨
      ¬ h.value.toNat + 1 < 2 ^ 64 ∧ h.next = .error .countOverflow := by
  rcases addCount_cases h.value 1 with ⟨-, v, hv⟩ | ⟨hlast, hv⟩
  · exact .inl ⟨⟨v⟩, by rw [next, hv]; rfl, addCount_eq_ok.1 hv⟩
  · exact .inr ⟨hlast, by rw [next, hv]; rfl⟩

namespace Hosted

open GossipEngine (propose encode decode heights heightOf?)

variable (x : Hosted) (ts : List Turn) (t : Turn) (s : State)

/-- A proposal raises the height by one and floods all live links, or it faults at the last height. -/
theorem turn_propose :
    (∃ h, x.engine.decided.height.next = .ok h ∧ x.turn propose (.propose s) =
      (.ok (x.live.map fun l => ⟨l, encode h s⟩),
        { x with engine := { x.engine with decided := ⟨h, .zero, s⟩, links := x.live } })) ∨
    x.engine.decided.height.next = .error .countOverflow ∧
      x.turn propose (.propose s) = (.error .countOverflow, x) := by
  rcases x.engine.decided.height.next_cases with ⟨h, hnext, -⟩ | ⟨-, hnext⟩
  · refine .inl ⟨h, hnext, ?_⟩
    rw [turn, propose, hnext]
    rfl
  · refine .inr ⟨hnext, ?_⟩
    rw [turn, propose, hnext]

/-! ## What is flooded -/

theorem gone_turn : (x.turn propose t).2.gone = x.gone ++ t.dropped?.toList := by
  cases t with
  | propose s =>
    rcases x.turn_propose s with ⟨h, -, heq⟩ | ⟨-, heq⟩
    · rw [heq]
      exact (List.append_nil _).symm
    · rw [heq]
      exact (List.append_nil _).symm
  | drop l => rfl
  | _ => exact (List.append_nil _).symm

/-- A link that has ended does not come back. -/
theorem alive_of_alive_turn {x : Hosted} {l : Nat} (hl : (x.turn propose t).2.alive l = true) : x.alive l = true := by
  simp only [alive, gone_turn, decide_eq_true_eq, List.mem_append, not_or] at hl ⊢
  exact hl.1

theorem filter_alive_turn (ls : List Nat) :
    (ls.filter x.alive).filter (x.turn propose t).2.alive = ls.filter (x.turn propose t).2.alive := by
  rw [List.filter_filter]
  exact List.filter_congr fun l _ => Bool.and_eq_left_iff_imp.2 fun hl => alive_of_alive_turn t hl

theorem live_turn : (x.turn propose t).2.live = (x.engine.links ++ t.links).filter (x.turn propose t).2.alive := by
  cases t with
  | receive m =>
    change (x.engine.receive m).1.links.filter x.alive = (x.engine.links ++ []).filter x.alive
    rw [GossipEngine.links_receive, List.append_nil]
  | propose s =>
    change _ = (x.engine.links ++ []).filter _
    rw [List.append_nil]
    rcases x.turn_propose s with ⟨h, -, heq⟩ | ⟨-, heq⟩
    · rw [heq]
      exact List.filter_eq_self.2 fun l hl => (List.mem_filter.1 hl).2
    · rw [heq, live]
  | attach ls => rfl
  | update | drop => exact congrArg (List.filter _) (List.append_nil _).symm

theorem gone_after : (x.after propose ts).gone = x.gone ++ dropped ts := by
  induction ts using List.reverseRecOn with
  | nil => exact (List.append_nil _).symm
  | append_singleton ts t ih =>
    rw [after_concat, gone_turn, ih, dropped_concat, List.append_assoc]

theorem live_after : (x.after propose ts).live = (x.engine.links ++ entries ts).filter (x.after propose ts).alive := by
  induction ts using List.reverseRecOn with
  | nil => rw [entries, List.flatMap_nil, List.append_nil]; rfl
  | append_singleton ts t ih =>
    rw [after_concat]
    generalize x.after propose ts = y at ih ⊢
    have hkept : y.engine.links.filter (y.turn propose t).2.alive =
        (x.engine.links ++ entries ts).filter (y.turn propose t).2.alive := by
      rw [← filter_alive_turn, ← filter_alive_turn y t (_ ++ _), ← ih, live]
    rw [live_turn, List.filter_append, hkept, ← List.filter_append, List.append_assoc, entries_concat]

/-! ## How high it gets -/

theorem height_after_le :
    (x.after propose ts).engine.height ≤ (heights (received ts)).foldl max x.engine.height + countProposals ts := by
  induction ts using List.reverseRecOn with
  | nil => exact Nat.le_refl _
  | append_singleton ts t ih =>
    rw [after_concat, received_concat, countProposals_concat]
    generalize x.after propose ts = y at ih ⊢
    cases t with
    | receive m =>
      change (y.engine.receive m).1.height ≤
        (heights (received ts ++ [m])).foldl max x.engine.height + countProposals ts
      rw [GossipEngine.heights_concat, List.foldl_append]
      rcases y.engine.receive_cases m with ⟨h, hm, -, heq⟩ | ⟨-, error, heq⟩
      · rw [heq, hm]
        exact Nat.le_trans (Nat.le_max_right _ h.value.toNat) (Nat.le_add_right _ _)
      · rw [heq]
        refine Nat.le_trans ih (Nat.add_le_add_right ?_ _)
        cases heightOf? m with
        | none => exact Nat.le_refl _
        | some k => exact Nat.le_max_left _ _
    | propose s =>
      change _ ≤ (heights (received ts ++ [])).foldl max x.engine.height + (countProposals ts + 1)
      rw [List.append_nil]
      rcases y.turn_propose s with ⟨h, hnext, heq⟩ | ⟨-, heq⟩
      · rw [heq]
        have hheight : h.value.toNat = y.engine.height + 1 := Height.next_eq_ok.1 hnext
        change h.value.toNat ≤ _
        omega
      · rw [heq]
        exact Nat.le_succ_of_le ih
    | update | attach | drop =>
      change y.engine.height ≤ (heights (received ts ++ [])).foldl max x.engine.height + countProposals ts
      rw [List.append_nil]
      exact ih

/-! ## When it can propose -/

/-- A proposal is made: it raises the height by one, and one message that says so goes out on every live link. -/
def Proposes (x : Hosted) (s : State) : Prop :=
  ∃ e sent, x.engine.propose x.alive s = .ok (e, sent) ∧ e.height = x.engine.height + 1 ∧ e.decided.state = s ∧
    sent.map Outgoing.link = x.live ∧ ∀ o ∈ sent, decode o.payload = .ok (e.decided.height, s)

theorem proposes_iff {x : Hosted} {s : State} : x.Proposes s ↔ x.engine.height + 1 < 2 ^ 64 := by
  constructor
  · rintro ⟨e, sent, -, hheight, -⟩
    have hlt : e.height < 2 ^ 64 := e.decided.height.value.toNat_lt
    omega
  · intro hlt
    rcases x.engine.decided.height.next_cases with ⟨h, hnext, hh⟩ | ⟨hlast, -⟩
    · refine ⟨_, _, GossipEngine.propose_eq_ok.2 ⟨h, hnext, rfl, rfl⟩, hh, rfl, ?_, fun o ho => ?_⟩
      · rw [List.map_map]
        exact List.map_id _
      · obtain ⟨l, -, rfl⟩ := List.mem_map.1 ho
        exact GossipEngine.decode_encode h s
    · exact absurd hlt hlast

/-- Whatever an engine was sent and did, it can propose as long as its height is not the last that there is, and then
floods the links that were attached and have not ended. At the last height a proposal faults and changes nothing; the
height gets there by proposals, of which each raises it by one, or with a message. -/
theorem proposes_below_last (x : Hosted) (ts : List Turn) (s : State) :
    ((x.after propose ts).Proposes s ↔ (x.after propose ts).engine.height + 1 < 2 ^ 64) ∧
    (¬ (x.after propose ts).engine.height + 1 < 2 ^ 64 →
      (x.after propose ts).turn propose (.propose s) = (.error .countOverflow, x.after propose ts)) ∧
    (x.after propose ts).engine.height ≤ (heights (received ts)).foldl max x.engine.height + countProposals ts ∧
    (x.after propose ts).live = (x.engine.links ++ entries ts).filter fun l => l ∉ x.gone ++ dropped ts := by
  refine ⟨proposes_iff, fun hlast => ?_, height_after_le x ts, ?_⟩
  · rcases (x.after propose ts).turn_propose s with ⟨h, hnext, -⟩ | ⟨-, hfault⟩
    · have hheight := Height.next_eq_ok.1 hnext
      exact absurd (hheight ▸ h.value.toNat_lt) hlast
    · exact hfault
  · rw [live_after, ← gone_after]
    rfl

/-- An engine with two links, one of them attached twice and the other one ended, that takes over a height. -/
def rumoured : List Turn :=
  [.attach [4, 7], .attach [4], .receive (encode ⟨5⟩ ⟨[9]⟩), .drop 7, .propose ⟨[1]⟩, .update, .receive [0, 1]]

theorem proposes_below_last_rumoured : ((fresh ⟨[]⟩).after propose rumoured).Proposes ⟨[2]⟩ ∧
    ((fresh ⟨[]⟩).after propose rumoured).engine.height ≤ 6 ∧ ((fresh ⟨[]⟩).after propose rumoured).live = [4, 4] := by
  obtain ⟨hproposes, -, hheight, hlive⟩ := proposes_below_last (fresh ⟨[]⟩) rumoured ⟨[2]⟩
  have hbound : ((fresh ⟨[]⟩).after propose rumoured).engine.height ≤ 6 := hheight
  exact ⟨hproposes.2 (by omega), hbound, hlive⟩

/-- One message of the last height is taken over, and then no proposal is made. -/
theorem silenced_by_message : ((GossipEngine.initial ⟨[]⟩).receive (List.replicate 8 255)).2 = none ∧
    ¬ ((fresh ⟨[]⟩).after propose [.attach [0], .receive (List.replicate 8 255)]).Proposes ⟨[1]⟩ := by
  refine ⟨by decide, ?_⟩
  rw [proposes_iff]
  decide

end Hosted

end VirtualMesh

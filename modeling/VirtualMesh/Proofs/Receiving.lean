import Mathlib.Data.List.Perm.Basic
import VirtualMesh.Proofs.Wire

/-!
# Messages received one after another

A gossip engine that receives messages holds the greatest of its own height and theirs, and with it the state of the
first message of that height. A message that is not above all heights so far is refused, and so is one that holds no
height; it changes nothing but the number of refusals. If no two messages share the greatest height, their order
does not matter.
-/

namespace VirtualMesh

namespace GossipEngine

/-- The height in front of a message, if it is long enough to have one. -/
def heightOf? (m : Bytes) : Option Nat := if m.length < 8 then none else some (BigEndian.decode (m.take 8))

def heights (ms : List Bytes) : List Nat := ms.filterMap heightOf?

def height (e : GossipEngine) : Nat := e.decided.height.value.toNat

def receiveAll (e : GossipEngine) (ms : List Bytes) : GossipEngine := ms.foldl (fun e m => (e.receive m).1) e

/-- Whether the height of a message is above `floor` and above the heights of all messages before it. -/
def rises (floor : Nat) (before : List Bytes) (m : Bytes) : Bool :=
  (heightOf? m).any fun h => floor < h ∧ ∀ k ∈ heights before, k < h

def countRises (floor : Nat) (ms : List Bytes) : Nat := ms.zipIdx.countP fun x => rises floor (ms.take x.2) x.1

/-! ## One message -/

theorem exists_decode {m : Bytes} (hm : 8 ≤ m.length) :
    ∃ h : Height, decode m = .ok (h, ⟨m.drop 8⟩) ∧ heightOf? m = some h.value.toNat := by
  refine ⟨_, decode_of_length hm, ?_⟩
  rw [heightOf?, if_neg (Nat.not_lt.2 hm), toNat_head hm]

/-- A message is taken over if its height is above that of the engine. -/
theorem receive_cases (e : GossipEngine) (m : Bytes) :
    (∃ h : Height, heightOf? m = some h.value.toNat ∧ e.height < h.value.toNat ∧
      e.receive m = ({ e with decided := ⟨h, .zero, ⟨m.drop 8⟩⟩ }, none)) ∨
    (∀ k, heightOf? m = some k → k ≤ e.height) ∧
      ∃ error, e.receive m = ({ e with rejected := e.rejected + 1 }, some error) := by
  simp only [receive, adopt]
  rcases Nat.lt_or_ge m.length 8 with hm | hm
  · refine .inr ⟨fun k hk => ?_, _, by rw [decode_eq_error.2 ⟨hm, rfl⟩]⟩
    rw [heightOf?, if_pos hm] at hk
    cases hk
  · obtain ⟨h, hread, hhead⟩ := exists_decode hm
    rw [hread]
    by_cases hle : h ≤ e.decided.height
    · refine .inr ⟨fun k hk => ?_, .decideHeightLower, by simp only [hle, if_true]⟩
      obtain rfl := Option.some.inj (hhead.symm.trans hk)
      exact Height.le_def.1 hle
    · refine .inl ⟨h, hhead, ?_, by simp only [hle, if_false]⟩
      exact Nat.not_le.1 fun hle' => hle (Height.le_def.2 hle')

theorem receive_of_error {e : GossipEngine} {m : Bytes} {error : ConsensusError} (he : (e.receive m).2 = some error) :
    (e.receive m).1 = { e with rejected := e.rejected + 1 } := by
  rcases e.receive_cases m with ⟨h, -, -, heq⟩ | ⟨-, error', heq⟩
  · rw [heq] at he
    cases he
  · rw [heq]

/-! ## Messages in order -/

section
variable (e : GossipEngine) (ms : List Bytes) (m : Bytes)

theorem receiveAll_concat : e.receiveAll (ms ++ [m]) = ((e.receiveAll ms).receive m).1 := by
  rw [receiveAll, List.foldl_append]
  rfl

theorem heights_concat : heights (ms ++ [m]) = heights ms ++ (heightOf? m).toList := by
  rw [heights, List.filterMap_append]
  cases hm : heightOf? m <;> simp [hm, heights]

theorem countRises_concat (floor : Nat) :
    countRises floor (ms ++ [m]) = countRises floor ms + if rises floor ms m then 1 else 0 := by
  have hbefore : ∀ x ∈ ms.zipIdx, rises floor ((ms ++ [m]).take x.2) x.1 = rises floor (ms.take x.2) x.1 := by
    intro x hx
    rw [List.take_append_of_le_length (Nat.le_of_lt (List.snd_lt_of_mem_zipIdx hx))]
  rw [countRises, List.zipIdx_append, List.countP_append, countRises]
  congr 1
  · exact List.countP_congr fun x hx => by rw [hbefore x hx]
  · simp

end

theorem foldl_max_lt {l : List Nat} {b n : Nat} : l.foldl max b < n ↔ b < n ∧ ∀ k ∈ l, k < n := by
  induction l generalizing b with
  | nil => simp
  | cons k l ih => rw [List.foldl_cons, ih, List.forall_mem_cons, Nat.max_lt, and_assoc]

variable {e : GossipEngine} {ms ms' : List Bytes} {m : Bytes}

theorem height_receiveAll (e : GossipEngine) (ms : List Bytes) :
    (e.receiveAll ms).height = (heights ms).foldl max e.height := by
  induction ms using List.reverseRecOn with
  | nil => rfl
  | append_singleton ms m ih =>
    rw [receiveAll_concat, heights_concat, List.foldl_append, ← ih]
    rcases (e.receiveAll ms).receive_cases m with ⟨h, hm, hlt, heq⟩ | ⟨hle, error, heq⟩
    · rw [heq, hm]
      exact (Nat.max_eq_right (Nat.le_of_lt hlt)).symm
    · rw [heq]
      cases hm : heightOf? m with
      | none => rfl
      | some k => exact (Nat.max_eq_left (hle k hm)).symm

theorem le_height_receiveAll (e : GossipEngine) (ms : List Bytes) :
    e.height ≤ (e.receiveAll ms).height ∧ ∀ k ∈ heights ms, k ≤ (e.receiveAll ms).height := by
  have hlt := foldl_max_lt.1 (Nat.lt_succ_self ((heights ms).foldl max e.height))
  rw [height_receiveAll]
  exact ⟨Nat.le_of_lt_succ hlt.1, fun k hk => Nat.le_of_lt_succ (hlt.2 k hk)⟩

theorem rises_iff : rises e.height ms m = true ↔ ∃ k, heightOf? m = some k ∧ (e.receiveAll ms).height < k := by
  rw [height_receiveAll]
  simp only [foldl_max_lt, rises, Option.any_eq_true, decide_eq_true_eq]

theorem rejected_receiveAll (e : GossipEngine) (ms : List Bytes) :
    (e.receiveAll ms).rejected + countRises e.height ms = e.rejected + ms.length := by
  induction ms using List.reverseRecOn with
  | nil => rfl
  | append_singleton ms m ih =>
    rw [receiveAll_concat, countRises_concat, List.length_append, List.length_singleton]
    rcases (e.receiveAll ms).receive_cases m with ⟨h, hm, hlt, heq⟩ | ⟨hle, error, heq⟩
    · rw [heq, if_pos (rises_iff.2 ⟨_, hm, hlt⟩)]
      simp only
      omega
    · have hnot : ¬ rises e.height ms m = true := by
        rw [rises_iff]
        rintro ⟨k, hk, hlt⟩
        exact absurd (hle k hk) (Nat.not_le.2 hlt)
      rw [heq, if_neg hnot]
      simp only
      omega

/-- What an engine has taken over is the first message of its height. -/
theorem exists_first (hlt : e.height < (e.receiveAll ms).height) : ∃ before m after, ms = before ++ m :: after ∧
    heightOf? m = some (e.receiveAll ms).height ∧ (∀ x ∈ before, heightOf? x ≠ some (e.receiveAll ms).height) ∧
      (e.receiveAll ms).decided = ⟨(e.receiveAll ms).decided.height, .zero, ⟨m.drop 8⟩⟩ := by
  induction ms using List.reverseRecOn with
  | nil => exact absurd hlt (Nat.lt_irrefl _)
  | append_singleton ms m ih =>
    rw [receiveAll_concat] at hlt ⊢
    rcases (e.receiveAll ms).receive_cases m with ⟨h, hm, habove, heq⟩ | ⟨-, error, heq⟩
    · rw [heq]
      refine ⟨ms, m, [], rfl, hm, fun x hx hsame => ?_, rfl⟩
      have hle := (le_height_receiveAll e ms).2 _ (List.mem_filterMap.2 ⟨x, hx, hsame⟩)
      exact absurd habove (Nat.not_lt.2 hle)
    · rw [heq] at hlt ⊢
      obtain ⟨before, x, after, rfl, hx, hbefore, hdecided⟩ := ih hlt
      exact ⟨before, x, after ++ [m], by simp, hx, hbefore, hdecided⟩

theorem decided_of_not_lt (hnot : ¬ e.height < (e.receiveAll ms).height) :
    (e.receiveAll ms).decided = e.decided := by
  induction ms using List.reverseRecOn with
  | nil => rfl
  | append_singleton ms m ih =>
    rw [receiveAll_concat] at hnot ⊢
    rcases (e.receiveAll ms).receive_cases m with ⟨h, -, habove, heq⟩ | ⟨-, error, heq⟩
    · have hle := (le_height_receiveAll e ms).1
      rw [heq] at hnot
      exact absurd (Nat.lt_of_le_of_lt hle habove) hnot
    · rw [heq] at hnot ⊢
      exact ih hnot

/-! ## Messages in any order -/

theorem height_perm (hperm : ms.Perm ms') : (e.receiveAll ms').height = (e.receiveAll ms).height := by
  rw [height_receiveAll, height_receiveAll]
  exact ((hperm.filterMap heightOf?).foldl_eq _).symm

theorem eq_of_count_eq_one {k : Nat} (hone : (heights ms).count k = 1) {x y : Bytes} (hx : x ∈ ms) (hy : y ∈ ms)
    (hxk : heightOf? x = some k) (hyk : heightOf? y = some k) : x = y := by
  have hlength : (ms.filter fun m => decide (heightOf? m = some k)).length = 1 := by
    rw [← hone, heights, List.count, List.countP_filterMap, ← List.countP_eq_length_filter]
    refine List.countP_congr fun m _ => ?_
    cases heightOf? m <;> simp
  obtain ⟨z, hz⟩ := List.length_eq_one_iff.1 hlength
  have hmem : ∀ m ∈ ms, heightOf? m = some k → m = z := by
    intro m hm hk
    have hfilter : m ∈ ms.filter fun m => decide (heightOf? m = some k) := List.mem_filter.2 ⟨hm, decide_eq_true hk⟩
    rw [hz] at hfilter
    exact List.mem_singleton.1 hfilter
  exact (hmem x hx hxk).trans (hmem y hy hyk).symm

theorem decided_perm (hperm : ms.Perm ms')
    (honce : ∀ k ∈ heights ms, (∀ l ∈ heights ms, l ≤ k) → (heights ms).count k = 1) :
    (e.receiveAll ms').decided = (e.receiveAll ms).decided := by
  have hheight : (e.receiveAll ms').height = (e.receiveAll ms).height := height_perm hperm
  by_cases hlt : e.height < (e.receiveAll ms).height
  · obtain ⟨before, x, after, hms, hx, -, hdecided⟩ := exists_first hlt
    obtain ⟨before', y, after', hms', hy, -, hdecided'⟩ := exists_first (hheight ▸ hlt)
    have hxmem : x ∈ ms := hms ▸ List.mem_append_right _ List.mem_cons_self
    have hymem : y ∈ ms := hperm.mem_iff.2 (hms' ▸ List.mem_append_right _ List.mem_cons_self)
    -- both messages have the greatest height, which comes once
    have hone := honce _ (List.mem_filterMap.2 ⟨x, hxmem, hx⟩) (le_height_receiveAll e ms).2
    obtain rfl := eq_of_count_eq_one hone hxmem hymem hx (hheight ▸ hy)
    have hsame : (e.receiveAll ms').decided.height = (e.receiveAll ms).decided.height :=
      congrArg Height.mk (UInt64.toNat_inj.1 hheight)
    rw [hdecided, hdecided', hsame]
  · rw [decided_of_not_lt hlt, decided_of_not_lt (hheight ▸ hlt)]

/-- The height after some messages is the greatest of the engine's own and theirs. The state is that of the first
message of this height if there was none so great before, and the old one otherwise. All messages are refused but
those above all that came before, and a refusal leaves what was decided alone. If the greatest height of the messages
comes once, their order does not matter. -/
theorem running_maximum (e : GossipEngine) (ms : List Bytes) :
    (e.receiveAll ms).height = (heights ms).foldl max e.height ∧
    (e.height < (e.receiveAll ms).height → ∃ before m after, ms = before ++ m :: after ∧
      heightOf? m = some (e.receiveAll ms).height ∧ (∀ x ∈ before, heightOf? x ≠ some (e.receiveAll ms).height) ∧
        (e.receiveAll ms).decided.state = ⟨m.drop 8⟩) ∧
    (¬ e.height < (e.receiveAll ms).height → (e.receiveAll ms).decided = e.decided) ∧
    (e.receiveAll ms).rejected + countRises e.height ms = e.rejected + ms.length ∧
    (∀ before m after error, ms = before ++ m :: after → ((e.receiveAll before).receive m).2 = some error →
      (e.receiveAll (before ++ [m])).decided = (e.receiveAll before).decided) ∧
    ∀ ms', ms.Perm ms' → (∀ k ∈ heights ms, (∀ l ∈ heights ms, l ≤ k) → (heights ms).count k = 1) →
      (e.receiveAll ms').decided = (e.receiveAll ms).decided := by
  refine ⟨height_receiveAll e ms, fun hlt => ?_, decided_of_not_lt, rejected_receiveAll e ms, ?_, ?_⟩
  · obtain ⟨before, m, after, hms, hm, hbefore, hdecided⟩ := exists_first hlt
    exact ⟨before, m, after, hms, hm, hbefore, congrArg Decision.state hdecided⟩
  · intro before m after error _ hrefused
    rw [receiveAll_concat, receive_of_error hrefused]
  · exact fun ms' hperm honce => decided_perm hperm honce

/-- Two heights above the engine's own, one of them twice, with a stale message and one that is none. -/
def hearsay : List Bytes :=
  [encode ⟨3⟩ ⟨[1]⟩, [0, 7], encode ⟨2⟩ ⟨[2]⟩, encode ⟨5⟩ ⟨[3]⟩, encode ⟨3⟩ ⟨[4]⟩, []]

/-- An engine that has decided on height 2. -/
def decidedTwo : GossipEngine := { initial ⟨[]⟩ with decided := ⟨⟨2⟩, .zero, ⟨[9]⟩⟩ }

theorem running_maximum_hearsay :
    (decidedTwo.receiveAll hearsay).height = 5 ∧ (decidedTwo.receiveAll hearsay).rejected = 4 ∧
    (decidedTwo.receiveAll hearsay).decided.state = ⟨[3]⟩ ∧
    (decidedTwo.receiveAll hearsay.reverse).decided = (decidedTwo.receiveAll hearsay).decided ∧
    (decidedTwo.receiveAll (hearsay.take 2)).decided = (decidedTwo.receiveAll (hearsay.take 1)).decided := by
  obtain ⟨hheight, hfirst, -, hrejected, hrefusal, hperm⟩ := running_maximum decidedTwo hearsay
  have hfive : (decidedTwo.receiveAll hearsay).height = 5 := hheight.trans (by decide)
  refine ⟨hfive, ?_, ?_, ?_, ?_⟩
  · have hrises : countRises decidedTwo.height hearsay = 2 := by decide
    rw [hrises] at hrejected
    exact Nat.add_right_cancel hrejected
  · obtain ⟨before, m, after, hms, hm, -, hstate⟩ := hfirst (by rw [hfive]; decide)
    have honly : ∀ m ∈ hearsay, heightOf? m = some 5 → m.drop 8 = [3] := by decide
    rw [hstate, honly m (hms ▸ List.mem_append_right _ List.mem_cons_self) (hfive ▸ hm)]
  · exact hperm _ (List.reverse_perm _).symm (by decide)
  · exact hrefusal (hearsay.take 1) [0, 7] (hearsay.drop 2) .messageUnknownMessageType rfl rfl

end GossipEngine

end VirtualMesh

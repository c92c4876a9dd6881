import VirtualMesh.Proofs.Gossip
import VirtualMesh.Proofs.Simulation.Messages

/-!
# Floods of proposals

A proposal floods all links of its engine. An engine's height is never below that of a message that
has arrived there, nor below its own proposals, and what it holds was proposed. So when no message is
under way, and each proposal went to all engines, all heights are the greatest that was proposed.
-/

namespace VirtualMesh

/-- A state that an engine proposed, with the height that it gave it. -/
structure Proposal where
  engine : Nat
  height : Height
  state : State
  deriving DecidableEq

def Proposal.payload (x : Proposal) : Bytes := GossipEngine.encode x.height x.state

/-- The greatest height of some proposals, zero if there are none. -/
def Proposal.highest (xs : List Proposal) : Nat := (xs.map fun x => x.height.value.toNat).foldr max 0

theorem Proposal.le_highest {xs : List Proposal} {x : Proposal} (hx : x ∈ xs) :
    x.height.value.toNat ≤ highest xs := by
  induction xs with
  | nil => cases hx
  | cons y ys ih =>
    show x.height.value.toNat ≤ max y.height.value.toNat (highest ys)
    rcases List.mem_cons.1 hx with rfl | hx
    · exact Nat.le_max_left _ _
    · exact Nat.le_trans (ih hx) (Nat.le_max_right _ _)

theorem Proposal.exists_highest {xs : List Proposal} (h : 0 < highest xs) :
    ∃ x ∈ xs, x.height.value.toNat = highest xs := by
  induction xs with
  | nil => cases h
  | cons y ys ih =>
    have hmax : highest (y :: ys) = max y.height.value.toNat (highest ys) := rfl
    by_cases hle : highest ys ≤ y.height.value.toNat
    · exact ⟨y, List.mem_cons_self, by omega⟩
    · obtain ⟨x, hx, heq⟩ := ih (by omega)
      exact ⟨x, List.mem_cons_of_mem _ hx, by omega⟩

/-- Actions that make no proposal and send none but those of `P`, take away no link and add no peer
that drops messages. -/
structure Action.Gossips (P : List Proposal) (a : Action) : Prop where
  added : ∀ p ∈ a.added, p.config.onClose = .deliver
  sent : ∀ m, a.sent? = some m → ∃ x ∈ P, m.2 = x.payload
  receive : ∀ i message, a ≠ .receive i message
  propose : ∀ i state, a ≠ .propose i state
  unlink : ∀ i, a ≠ .unlink i

namespace Simulation

variable {ρ : Type}

def gossipAt (s : Simulation Engine ρ) (i : Nat) : Option GossipEngine :=
  match s.world.engines[i]? with
  | some (.gossip e) => some e
  | _ => none

theorem gossipAt_eq_some {s : Simulation Engine ρ} {i : Nat} {e : GossipEngine} :
    s.gossipAt i = some e ↔ s.world.engines[i]? = some (.gossip e) := by
  unfold gossipAt
  split
  · rename_i hi
    simp [hi]
  · rename_i hi
    constructor
    · intro h
      cases h
    · intro h
      exact absurd h (hi e)

theorem lt_of_gossipAt {s : Simulation Engine ρ} {i : Nat} {e : GossipEngine} (hi : s.gossipAt i = some e) :
    i < s.world.engines.length :=
  (List.getElem?_eq_some_iff.1 (gossipAt_eq_some.1 hi)).1

/-- The proposal that an engine makes of a state, if its height can rise. -/
def proposal (s : Simulation Engine ρ) (engine : Nat) (state : State) : List Proposal :=
  match s.world.engines[engine]? with
  | none => []
  | some e =>
    match (Consensus.current e).height.next with
    | .error _ => []
    | .ok h => [⟨engine, h, state⟩]

def proposals (s : Simulation Engine ρ) : Command → List Proposal
  | .propose handle state =>
    match (s.world.peerOfHandle handle).bind fun p => s.world.peers[p]? with
    | none => []
    | some peer => s.proposal peer.engine state
  | .proposeAt engine state => s.proposal engine state
  | _ => []

/-- What holds of gossip engines after the proposals `P`, of which all of `Q` were sent to all
engines. -/
structure Gossiping (P Q : List Proposal) (s : Simulation Engine ρ) : Prop where
  dropsNothing : s.DropsNothing
  engines : ∀ i, i < s.world.engines.length → ∃ e, s.gossipAt i = some e
  proposers : ∀ x ∈ P, x.engine < s.world.engines.length
  positive : ∀ x ∈ P, 0 < x.height.value.toNat
  sent : ∀ y ∈ s.sent, ∃ x ∈ P, y.payload = x.payload
  decided : ∀ i e, s.gossipAt i = some e → 0 < e.decided.height.value.toNat →
    ∃ x ∈ P, x.height = e.decided.height ∧ x.state = e.decided.state
  own : ∀ x ∈ P, ∀ e, s.gossipAt x.engine = some e → x.height ≤ e.decided.height
  heard : ∀ y ∈ s.arrivals, ∀ x : Proposal, y.payload = x.payload → ∀ i e,
    s.world.leadsTo i y.peer = true → s.gossipAt i = some e → x.height ≤ e.decided.height
  flooded : ∀ x ∈ Q, ∀ j, j < s.world.engines.length → j ≠ x.engine →
    ∃ y ∈ s.sent, s.world.leadsTo j y.peer = true ∧ y.payload = x.payload
  /-- A single proposer hears of nothing that it does not know. -/
  solo : ∀ k, (∀ x ∈ P, x.engine = k) → ∀ e, s.gossipAt k = some e →
    P.map (fun x => x.height.value.toNat) = List.range' 1 P.length ∧
      e.decided.height.value.toNat = P.length

/-- Every engine has a link that is there to a peer of every other engine. -/
def Connected (s : Simulation Engine ρ) : Prop :=
  ∀ i e, s.gossipAt i = some e → ∀ j, j < s.world.engines.length → j ≠ i →
    ∃ l ∈ s.world.links, l.number ∈ e.links ∧ s.world.leadsTo j l.peer = true

/-! ## When nothing is under way -/

section
variable {s : Simulation Engine ρ} {P : List Proposal}

theorem Gossiping.reached (hs : s.Sound) (h : s.Gossiping P P) (hquiet : s.underway = []) {x : Proposal}
    (hx : x ∈ P) {i : Nat} {e : GossipEngine} (hi : s.gossipAt i = some e) :
    x.height ≤ e.decided.height := by
  by_cases hown : i = x.engine
  · subst hown
    exact h.own x hx e hi
  · obtain ⟨y, hy, hleads, hpayload⟩ := h.flooded x hx i (lt_of_gossipAt hi) hown
    have hperm := messages_perm hs.ledger
    rw [hquiet, List.append_nil] at hperm
    obtain ⟨z, hz, heq⟩ := List.mem_map.1 (hperm.mem_iff.2 (List.mem_map_of_mem hy))
    rw [← heq] at hleads hpayload
    exact h.heard z hz x hpayload i e hleads hi

theorem Gossiping.height_eq (hs : s.Sound) (h : s.Gossiping P P) (hquiet : s.underway = []) {i : Nat}
    {e : GossipEngine} (hi : s.gossipAt i = some e) :
    e.decided.height.value.toNat = Proposal.highest P := by
  apply Nat.le_antisymm
  · by_cases hpos : 0 < e.decided.height.value.toNat
    · obtain ⟨x, hx, heq, -⟩ := h.decided i e hi hpos
      rw [← heq]
      exact Proposal.le_highest hx
    · omega
  · by_cases hpos : 0 < Proposal.highest P
    · obtain ⟨x, hx, heq⟩ := Proposal.exists_highest hpos
      rw [← heq]
      exact Height.le_def.1 (h.reached hs hquiet hx hi)
    · omega

theorem Gossiping.decided_mem (hs : s.Sound) (h : s.Gossiping P P) (hquiet : s.underway = [])
    (hP : P ≠ []) {i : Nat} {e : GossipEngine} (hi : s.gossipAt i = some e) :
    ∃ x ∈ P, x.height.value.toNat = Proposal.highest P ∧ x.state = e.decided.state := by
  obtain ⟨z, hz⟩ := List.exists_mem_of_ne_nil P hP
  have hpos := h.positive z hz
  have hle := Proposal.le_highest hz
  have heq := h.height_eq hs hquiet hi
  obtain ⟨x, hx, hheight, hstate⟩ := h.decided i e hi (by omega)
  exact ⟨x, hx, by rw [hheight, heq], hstate⟩

theorem Gossiping.highest_of_solo (h : s.Gossiping P P) {k : Nat} (hk : ∀ x ∈ P, x.engine = k) :
    P.map (fun x => x.height.value.toNat) = List.range' 1 P.length ∧ Proposal.highest P = P.length := by
  have hheights : P.map (fun x => x.height.value.toNat) = List.range' 1 P.length := by
    cases hP : P with
    | nil => rfl
    | cons x xs =>
      have hx : x ∈ P := hP ▸ List.mem_cons_self
      obtain ⟨e, he⟩ := h.engines k (hk x hx ▸ h.proposers x hx)
      rw [← hP]
      exact (h.solo k hk e he).1
  refine ⟨hheights, ?_⟩
  have hmem : ∀ n, n ∈ P.map (fun x => x.height.value.toNat) ↔ 1 ≤ n ∧ n < 1 + P.length := by
    intro n
    rw [hheights]
    exact List.mem_range'_1
  apply Nat.le_antisymm
  · by_cases hpos : 0 < Proposal.highest P
    · obtain ⟨x, hx, heq⟩ := Proposal.exists_highest hpos
      have hlt := (hmem _).1 (List.mem_map_of_mem hx)
      omega
    · omega
  · by_cases hP : P.length = 0
    · omega
    · obtain ⟨x, hx, heq⟩ := List.mem_map.1 ((hmem P.length).2 ⟨by omega, by omega⟩)
      rw [← heq]
      exact Proposal.le_highest hx

end

/-! ## What an action changes -/

section
variable [NormalSource ρ] {s s' : Simulation Engine ρ} {a : Action} {as : List Action} {P Q : List Proposal}

omit [NormalSource ρ] in
theorem gossip_of_tended {w : World Engine ρ} {i : Nat} {e : GossipEngine} {y : Engine}
    (h : w.Tended i a (.gossip e) y) (hreceive : ∀ message, a ≠ .receive i message) :
    ∃ e', y = .gossip e' ∧ (∀ n ∈ e.links, w.hasLink n = true → n ∈ e'.links) ∧
      ((∀ state, a ≠ .propose i state) → e'.decided = e.decided) := by
  cases h with
  | alone | update => exact ⟨_, rfl, fun n hn _ => hn, fun _ => rfl⟩
  | receive ha => exact absurd ha (hreceive _)
  | @propose state _ outgoing ha hy =>
    obtain ⟨k, -, rfl, -⟩ := Engine.propose_gossip_eq_ok.1 hy
    refine ⟨_, rfl, ?_, fun hother => absurd ha (hother state)⟩
    exact fun n hn hlive => List.mem_filter.2 ⟨hn, hlive⟩
  | reject ha hy => cases hy
  | attach hy =>
    cases hy
    exact ⟨_, rfl, fun n hn _ => List.mem_append_left _ hn, fun _ => rfl⟩

/-- A gossip engine stays one, keeps the links that are there, and takes over at most a proposal of a
greater height than its own. -/
theorem Step.gossipAt_cases (hstep : Step s a s') (hdrops : s.DropsNothing) {i : Nat} {e : GossipEngine}
    (hi : s.gossipAt i = some e) (hreceive : ∀ message, a ≠ .receive i message) :
    ∃ e', s'.gossipAt i = some e' ∧ (∀ n ∈ e.links, s.world.hasLink n = true → n ∈ e'.links) ∧
      (s'.arrivals = s.arrivals ∧ ((∀ state, a ≠ .propose i state) → e'.decided = e.decided) ∨
        ∃ m : Arrival, s'.arrivals = s.arrivals ++ [m] ∧ m.peer < s.world.peers.length ∧
          e'.decided = if s.world.leadsTo i m.peer then (e.receive m.payload).1.decided else e.decided) := by
  obtain ⟨y, hy, ⟨harrivals, htended⟩ | ⟨m, peer, harrivals, hpeer, hreceived⟩⟩ :=
    hstep.engine_cases (gossipAt_eq_some.1 hi)
  · obtain ⟨e', rfl, hlinks, hdecided⟩ := gossip_of_tended htended hreceive
    exact ⟨e', gossipAt_eq_some.2 hy, hlinks, .inl ⟨harrivals, hdecided⟩⟩
  · have hlt := (List.getElem?_eq_some_iff.1 hpeer).1
    by_cases hengine : peer.engine = i
    · have hto : s.world.leadsTo i m.peer = true := by simp [World.leadsTo, hpeer, hengine]
      rw [if_pos ⟨hdrops.drops_eq_false (List.mem_of_getElem? hpeer), hengine⟩] at hreceived
      refine ⟨(e.receive m.payload).1, gossipAt_eq_some.2 (hy.trans (congrArg some hreceived)), ?_,
        .inr ⟨m, harrivals, hlt, (if_pos hto).symm⟩⟩
      rw [GossipEngine.links_receive]
      exact fun n hn _ => hn
    · have hto : ¬ s.world.leadsTo i m.peer = true := by simp [World.leadsTo, hpeer, hengine]
      rw [if_neg fun h => hengine h.2] at hreceived
      exact ⟨e, gossipAt_eq_some.2 (hy.trans (congrArg some hreceived)), fun n hn _ => hn,
        .inr ⟨m, harrivals, hlt, (if_neg hto).symm⟩⟩

theorem Gossiping.sent_step (h : s.Gossiping P Q) (ha : a.Gossips P) (hstep : Step s a s') :
    ∀ y ∈ s'.sent, ∃ x ∈ P, y.payload = x.payload := by
  intro y hy
  rcases hstep.sent_cases with ⟨-, hsent⟩ | ⟨z, -, -, hz, hsent, -⟩
  · exact h.sent y (hsent ▸ hy)
  · rw [hsent] at hy
    rcases List.mem_append.1 hy with hy | hy
    · exact h.sent y hy
    · rw [List.mem_singleton.1 hy]
      exact ha.sent _ hz

theorem Gossiping.exists_proposal (hs : s.Sound) (h : s.Gossiping P Q) (ha : a.Gossips P)
    (hstep : Step s a s') {m : Arrival} (hm : m ∈ s'.arrivals) : ∃ x ∈ P, m.payload = x.payload := by
  obtain ⟨y, hy, heq⟩ := exists_sent_of_arrival (hstep.sound hs).ledger hm
  have hsent := h.sent_step ha hstep y hy
  rwa [heq] at hsent

/-- What an engine was before an action that is not its proposal. -/
theorem Gossiping.before (hs : s.Sound) (h : s.Gossiping P Q) (ha : a.Gossips P) (hstep : Step s a s')
    {i : Nat} {e' : GossipEngine} (hi : s'.gossipAt i = some e') :
    ∃ e, s.gossipAt i = some e ∧ e.decided.height ≤ e'.decided.height ∧
      (e'.decided = e.decided ∨
        ∃ x ∈ P, e'.decided = ⟨x.height, .zero, x.state⟩ ∧ ¬ x.height ≤ e.decided.height) ∧
      ∀ y ∈ s'.arrivals, y ∈ s.arrivals ∨ (s'.world.leadsTo i y.peer = true →
        ∀ x : Proposal, y.payload = x.payload → x.height ≤ e'.decided.height) := by
  have hlt : i < s.world.engines.length := hstep.length_engines ▸ lt_of_gossipAt hi
  obtain ⟨e, he⟩ := h.engines i hlt
  obtain ⟨e'', hi', -, hcases⟩ := hstep.gossipAt_cases h.dropsNothing he (ha.receive i)
  obtain rfl := Option.some.inj (hi'.symm.trans hi)
  refine ⟨e, he, ?_⟩
  rcases hcases with ⟨harrivals, hdecided⟩ | ⟨m, harrivals, hpeer, hdecided⟩
  · have heq := hdecided (ha.propose i)
    rw [heq, harrivals]
    exact ⟨Height.le_rfl _, .inl rfl, fun y hy => .inl hy⟩
  · have hreceived : s.world.leadsTo i m.peer = true → ∀ x : Proposal, m.payload = x.payload →
        e''.decided = if x.height ≤ e.decided.height then e.decided else ⟨x.height, .zero, x.state⟩ := by
      intro hleads x hpayload
      rw [hdecided, if_pos hleads, hpayload]
      exact GossipEngine.decided_receive e x.height x.state
    have hnew : ∀ y ∈ s'.arrivals, y ∈ s.arrivals ∨ (s'.world.leadsTo i y.peer = true →
        ∀ x : Proposal, y.payload = x.payload → x.height ≤ e''.decided.height) := by
      intro y hy
      rw [harrivals] at hy
      rcases List.mem_append.1 hy with hy | hy
      · exact .inl hy
      · rw [List.mem_singleton.1 hy]
        refine .inr fun hleads x hpayload => ?_
        rw [hstep.leadsTo_eq hpeer] at hleads
        rw [hreceived hleads x hpayload]
        split
        · assumption
        · exact Height.le_rfl _
    by_cases hleads : s.world.leadsTo i m.peer = true
    · have hmem : m ∈ s'.arrivals := harrivals ▸ List.mem_append_right _ (List.mem_singleton.2 rfl)
      obtain ⟨x, hx, hpayload⟩ := h.exists_proposal hs ha hstep hmem
      have hreceived := hreceived hleads x hpayload
      by_cases hle : x.height ≤ e.decided.height
      · rw [if_pos hle] at hreceived
        exact ⟨hreceived ▸ Height.le_rfl _, .inl hreceived, hnew⟩
      · rw [if_neg hle] at hreceived
        refine ⟨?_, .inr ⟨x, hx, hreceived, hle⟩, hnew⟩
        rw [Height.le_def] at hle
        rw [hreceived, Height.le_def]
        exact Nat.le_of_lt (Nat.lt_of_not_le hle)
    · rw [if_neg hleads] at hdecided
      exact ⟨hdecided ▸ Height.le_rfl _, .inl hdecided, hnew⟩

theorem Step.gossiping (hs : s.Sound) (h : s.Gossiping P Q) (ha : a.Gossips P) (hstep : Step s a s') :
    s'.Gossiping P Q := by
  have hbefore : ∀ {i : Nat} {e' : GossipEngine}, s'.gossipAt i = some e' → _ := fun hi =>
    h.before hs ha hstep hi
  constructor
  case dropsNothing => exact hstep.dropsNothing h.dropsNothing ha.added
  case engines =>
    rw [hstep.length_engines]
    intro i hi
    obtain ⟨e, he⟩ := h.engines i hi
    obtain ⟨e', he', -⟩ := hstep.gossipAt_cases h.dropsNothing he (ha.receive i)
    exact ⟨e', he'⟩
  case proposers =>
    rw [hstep.length_engines]
    exact h.proposers
  case positive => exact h.positive
  case sent => exact h.sent_step ha hstep
  case decided =>
    intro i e' hi hpos
    obtain ⟨e, he, -, hdecided | ⟨x, hx, hdecided, -⟩, -⟩ := hbefore hi
    · rw [hdecided] at hpos ⊢
      exact h.decided i e he hpos
    · rw [hdecided]
      exact ⟨x, hx, rfl, rfl⟩
  case own =>
    intro x hx e' hi
    obtain ⟨e, he, hle, -⟩ := hbefore hi
    have hown := h.own x hx e he
    rw [Height.le_def] at *
    omega
  case heard =>
    intro y hy x hpayload i e' hleads hi
    obtain ⟨e, he, hle, -, hnew⟩ := hbefore hi
    rcases hnew y hy with hy | hnew
    · rw [hstep.leadsTo_eq (hs.peer_lt_of_arrival hy)] at hleads
      have hheard := h.heard y hy x hpayload i e hleads he
      rw [Height.le_def] at *
      omega
    · exact hnew hleads x hpayload
  case flooded =>
    rw [hstep.length_engines]
    intro x hx j hj hne
    obtain ⟨y, hy, hleads, hpayload⟩ := h.flooded x hx j hj hne
    refine ⟨y, hstep.sent_prefix.subset hy, ?_, hpayload⟩
    rwa [hstep.leadsTo_eq (hs.peer_lt_of_sent hy)]
  case solo =>
    intro k hk e' hi
    obtain ⟨e, he, -, hdecided | ⟨x, hx, -, hnot⟩, -⟩ := hbefore hi
    · rw [hdecided]
      exact h.solo k hk e he
    · -- what it hears of is its own, and so not above what it holds
      have hown := h.own x hx e (hk x hx ▸ he)
      exact absurd hown hnot

theorem Step.connected (hs : s.Sound) (h : s.Gossiping P Q) (hc : s.Connected)
    (hreceive : ∀ i message, a ≠ .receive i message) (hunlink : ∀ i, a ≠ .unlink i)
    (hstep : Step s a s') : s'.Connected := by
  intro i e' hi j hj hne
  rw [hstep.length_engines] at hj
  obtain ⟨e, he⟩ := h.engines i (hstep.length_engines ▸ lt_of_gossipAt hi)
  obtain ⟨e'', hi', hlinks, -⟩ := hstep.gossipAt_cases h.dropsNothing he (hreceive i)
  obtain rfl := Option.some.inj (hi'.symm.trans hi)
  obtain ⟨l, hl, hmem, hleads⟩ := hc i e he j hj hne
  refine ⟨l, hstep.links_subset hunlink hl, hlinks _ hmem (World.hasLink_of_mem hl), ?_⟩
  rwa [hstep.leadsTo_eq (hs.world.links l hl)]

theorem Trace.gossiping (htrace : Trace s as s') (hs : s.Sound) (h : s.Gossiping P Q)
    (ha : ∀ a ∈ as, a.Gossips P) : s'.Gossiping P Q := by
  have hkeep : ∀ {s a s₁}, Action.Gossips P a → s.Sound ∧ Gossiping (ρ := ρ) P Q s → Step s a s₁ →
      s₁.Sound ∧ s₁.Gossiping P Q := fun ha hs hstep => ⟨hstep.sound hs.1, hstep.gossiping hs.1 hs.2 ha⟩
  exact (htrace.induct hkeep ha ⟨hs, h⟩).2

theorem Trace.connected (htrace : Trace s as s') (hs : s.Sound) (h : s.Gossiping P Q) (hc : s.Connected)
    (ha : ∀ a ∈ as, a.Gossips P) : s'.Connected := by
  induction htrace with
  | nil => exact hc
  | cons hstep _ ih =>
    obtain ⟨ha, has⟩ := List.forall_mem_cons.1 ha
    exact ih (hstep.sound hs) (hstep.gossiping hs h ha) (hstep.connected hs h hc ha.receive ha.unlink) has

/-! ## Proposals -/

omit [NormalSource ρ] in
theorem flood_eq {i : Nat} {e : GossipEngine} {state : State} {height : Height} (hi : s.gossipAt i = some e)
    (hnext : e.decided.height.next = .ok height) : s.flood i state =
      (e.links.filter s.world.hasLink).filterMap fun n =>
        (s.world.peerOfLink n).map (·, GossipEngine.encode height state) := by
  simp only [flood, gossipAt_eq_some.1 hi, Engine.propose_gossip_eq_ok.2 ⟨height, hnext, rfl, rfl⟩,
    List.filterMap_map]
  rfl

omit [NormalSource ρ] in
theorem payload_of_mem_flood {i : Nat} {e : GossipEngine} {state : State} {height : Height}
    (hi : s.gossipAt i = some e) (hnext : e.decided.height.next = .ok height) {m : Nat × Bytes}
    (hm : m ∈ s.flood i state) : m.2 = GossipEngine.encode height state := by
  rw [flood_eq hi hnext] at hm
  obtain ⟨n, -, hm⟩ := List.mem_filterMap.1 hm
  obtain ⟨p, -, rfl⟩ := Option.map_eq_some_iff.1 hm
  rfl

omit [NormalSource ρ] in
theorem mem_flood (hs : s.Sound) {i : Nat} {e : GossipEngine} {state : State} {height : Height}
    (hi : s.gossipAt i = some e) (hnext : e.decided.height.next = .ok height) {l : Link}
    (hl : l ∈ s.world.links) (hmem : l.number ∈ e.links) :
    (l.peer, GossipEngine.encode height state) ∈ s.flood i state := by
  rw [flood_eq hi hnext]
  refine List.mem_filterMap.2 ⟨l.number, List.mem_filter.2 ⟨hmem, World.hasLink_of_mem hl⟩, ?_⟩
  rw [hs.world.peerOfLink_eq hl]
  rfl

theorem Step.exists_next {i : Nat} {e : GossipEngine} {state : State} (hi : s.gossipAt i = some e)
    (hstep : Step s (.propose i state) s') : ∃ height, e.decided.height.next = .ok height := by
  cases hstep with
  | propose hx hy =>
    obtain rfl := Option.some.inj (hx.symm.trans (gossipAt_eq_some.1 hi))
    obtain ⟨height, hnext, -⟩ := Engine.propose_gossip_eq_ok.1 hy
    exact ⟨height, hnext⟩

theorem Step.gossipAt_propose {i : Nat} {e : GossipEngine} {state : State} {height : Height}
    (hi : s.gossipAt i = some e) (hnext : e.decided.height.next = .ok height)
    (hstep : Step s (.propose i state) s') : s'.sent = s.sent ∧ s'.arrivals = s.arrivals ∧
      ∃ e', e'.decided.height = height ∧ e'.decided.state = state ∧ s'.gossipAt i = some e' ∧
        ∀ j, j ≠ i → s'.gossipAt j = s.gossipAt j := by
  cases hstep with
  | propose hx hy =>
    obtain rfl := Option.some.inj (hx.symm.trans (gossipAt_eq_some.1 hi))
    obtain ⟨k, hk, rfl, -⟩ := Engine.propose_gossip_eq_ok.1 hy
    obtain rfl := Except.ok.inj (hk.symm.trans hnext)
    refine ⟨rfl, rfl, _, rfl, rfl, gossipAt_eq_some.2 (List.getElem?_set_self (lt_of_gossipAt hi)), ?_⟩
    intro j hj
    simp only [gossipAt, Machine.world_withWorld, World.setEngine, List.getElem?_set_ne hj.symm]

/-- A proposal raises the height of its engine by one, and with it above all that the engine has heard
of. -/
theorem Step.gossiping_propose (hs : s.Sound) (h : s.Gossiping P Q) {i : Nat} {e : GossipEngine}
    {state : State} {height : Height} (hi : s.gossipAt i = some e)
    (hnext : e.decided.height.next = .ok height) (hstep : Step s (.propose i state) s') :
    s'.Gossiping (P ++ [⟨i, height, state⟩]) Q := by
  obtain ⟨hsent, harrivals, e', hdecided, hstate, hi', hother⟩ := hstep.gossipAt_propose hi hnext
  have hheight := Height.next_eq_ok.1 hnext
  have hlength := hstep.length_engines
  constructor
  case dropsNothing => exact hstep.dropsNothing h.dropsNothing (by simp [Action.added])
  case engines =>
    intro j hj
    by_cases hji : j = i
    · exact ⟨e', hji ▸ hi'⟩
    · rw [hother j hji]
      exact h.engines j (hlength ▸ hj)
  case proposers =>
    rw [hlength]
    intro x hx
    rcases List.mem_append.1 hx with hx | hx
    · exact h.proposers x hx
    · rw [List.mem_singleton.1 hx]
      exact lt_of_gossipAt hi
  case positive =>
    intro x hx
    rcases List.mem_append.1 hx with hx | hx
    · exact h.positive x hx
    · rw [List.mem_singleton.1 hx]
      show 0 < height.value.toNat
      omega
  case sent =>
    intro y hy
    obtain ⟨x, hx, hpayload⟩ := h.sent y (hsent ▸ hy)
    exact ⟨x, List.mem_append_left _ hx, hpayload⟩
  case decided =>
    intro j f hj hpos
    by_cases hji : j = i
    · subst hji
      obtain rfl := Option.some.inj (hj.symm.trans hi')
      exact ⟨_, List.mem_append_right _ (List.mem_singleton.2 rfl), hdecided.symm, hstate.symm⟩
    · rw [hother j hji] at hj
      obtain ⟨x, hx, heq⟩ := h.decided j f hj hpos
      exact ⟨x, List.mem_append_left _ hx, heq⟩
  case own =>
    intro x hx f hf
    by_cases hxi : x.engine = i
    · rw [hxi] at hf
      obtain rfl := Option.some.inj (hf.symm.trans hi')
      rw [hdecided, Height.le_def]
      rcases List.mem_append.1 hx with hx | hx
      · have hle := h.own x hx e (hxi ▸ hi)
        rw [Height.le_def] at hle
        omega
      · obtain rfl := List.mem_singleton.1 hx
        exact Nat.le_refl _
    · rw [hother _ hxi] at hf
      rcases List.mem_append.1 hx with hx | hx
      · exact h.own x hx f hf
      · exact absurd (congrArg Proposal.engine (List.mem_singleton.1 hx)) hxi
  case heard =>
    intro y hy x hpayload j f hleads hj
    rw [harrivals] at hy
    rw [hstep.leadsTo_eq (hs.peer_lt_of_arrival hy)] at hleads
    by_cases hji : j = i
    · subst hji
      obtain rfl := Option.some.inj (hj.symm.trans hi')
      have hle := h.heard y hy x hpayload j e hleads hi
      rw [Height.le_def] at hle
      rw [hdecided, Height.le_def]
      omega
    · rw [hother j hji] at hj
      exact h.heard y hy x hpayload j f hleads hj
  case flooded =>
    intro x hx j hj hne
    obtain ⟨y, hy, hleads, hpayload⟩ := h.flooded x hx j (hlength ▸ hj) hne
    rw [← hstep.leadsTo_eq (hs.peer_lt_of_sent hy)] at hleads
    exact ⟨y, hsent ▸ hy, hleads, hpayload⟩
  case solo =>
    intro k hk f hf
    obtain ⟨hold, hnew⟩ := List.forall_mem_append.1 hk
    obtain rfl : i = k := hnew _ (List.mem_singleton.2 rfl)
    obtain rfl := Option.some.inj (hf.symm.trans hi')
    obtain ⟨hheights, hlast⟩ := h.solo i hold e hi
    rw [List.map_append, hheights, List.length_append, List.length_singleton, List.range'_1_concat, hdecided]
    refine ⟨?_, ?_⟩
    · rw [List.map_singleton, hheight, hlast, Nat.add_comm]
    · rw [hheight, hlast]

theorem gossiping_of_propose (hs : s.Sound) (h : s.Gossiping P P) (hc : s.Connected) {i : Nat} {state : State}
    (hi : i < s.world.engines.length) (hpropose : s.propose i state = .ok s') :
    ∃ x : Proposal, s.proposal i state = [x] ∧ x.engine = i ∧ x.state = state ∧
      s'.Gossiping (P ++ [x]) (P ++ [x]) ∧ s'.Connected := by
  have htrace := propose_trace hs hi hpropose
  obtain ⟨e, he⟩ := h.engines i hi
  cases htrace with
  | @cons _ s₁ _ _ _ hstep hrest =>
    obtain ⟨height, hnext⟩ := hstep.exists_next he
    have hs₁ := hstep.sound hs
    have h₁ := hstep.gossiping_propose hs h he hnext
    have hc₁ := hstep.connected hs h hc (by simp) (by simp)
    have hsends : ∀ a ∈ (s.flood i state).map fun m => Action.send m.1 m.2,
        a.Gossips (P ++ [⟨i, height, state⟩]) := by
      intro a ha
      obtain ⟨m, hm, rfl⟩ := List.mem_map.1 ha
      refine ⟨by simp [Action.added], ?_, by simp, by simp, by simp⟩
      intro n hn
      cases hn
      exact ⟨_, List.mem_append_right _ (List.mem_singleton.2 rfl), payload_of_mem_flood he hnext hm⟩
    have h' := hrest.gossiping hs₁ h₁ hsends
    refine ⟨⟨i, height, state⟩, ?_, rfl, rfl, ?_, hrest.connected hs₁ h₁ hc₁ hsends⟩
    · have hcurrent : (Consensus.current (Engine.gossip e)).height.next = .ok height := hnext
      simp only [proposal, gossipAt_eq_some.1 he, hcurrent]
    · refine { h' with flooded := ?_ }
      intro x hx j hj hne
      rcases List.mem_append.1 hx with hx | hx
      · exact h'.flooded x hx j hj hne
      · -- the engine had a link to `j` when it proposed, and the flood went through it
        obtain rfl := List.mem_singleton.1 hx
        have hlength := (Trace.cons hstep hrest).length_engines
        obtain ⟨l, hl, hmem, hleads⟩ := hc i e he j (hlength ▸ hj) hne
        have hsent := hrest.map_sent
        rw [sent?_send] at hsent
        have hin : (l.peer, GossipEngine.encode height state) ∈ s'.sent.map fun y => (y.peer, y.payload) :=
          hsent ▸ List.mem_append_right _ (mem_flood hs he hnext hl hmem)
        obtain ⟨y, hy, heq⟩ := List.mem_map.1 hin
        obtain ⟨hpeer, hpayload⟩ := Prod.mk.inj heq
        refine ⟨y, hy, ?_, hpayload⟩
        rw [hpeer, (Trace.cons hstep hrest).leadsTo_eq (hs.world.links l hl)]
        exact hleads

end

end Simulation

end VirtualMesh

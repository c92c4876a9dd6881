import VirtualMesh.Proofs.Simulation.Statistics
import VirtualMesh.Proofs.Simulation.Timing

/-!
# Closed peers

A peer that is closed stays closed. From then on it neither updates its engine nor puts a tick into the
queue. What becomes of the messages that arrive through it is for its configuration to say: all of them
are dropped and counted as such, or all are delivered as before.
-/

namespace VirtualMesh

namespace World

variable {ε ρ : Type} {w w₁ w₂ : World ε ρ} {p : Nat} {peer : Peer}

/-- What becomes of a task that fires now. -/
def outcome (w : World ε ρ) : Task → Outcome
  | .delivery p _ _ => if (w.peers[p]?).any Peer.drops then .dropped else .delivered
  | .tick p => if !w.isAlive p then .expired else .ticked (if w.isClosed p then .closed else .armed)

theorem outcome_tick (hp : w.isClosed p = true) :
    w.outcome (.tick p) = .expired ∨ w.outcome (.tick p) = .ticked .closed := by
  rw [outcome, hp]
  cases w.isAlive p
  · exact .inl rfl
  · exact .inr rfl

theorem outcome_eq_dropped (hp : w.isClosed p = true)
    (hdrop : ∀ origin, w.origins[p]? = some origin → origin.config.onClose = .drop) (payload : Bytes)
    (delay : Delay) : w.outcome (.delivery p payload delay) = .dropped := by
  obtain ⟨peer, hpeer, hclosed⟩ := exists_of_isClosed hp
  have hconfig : peer.config.onClose = .drop := hdrop peer.origin (origin_of_peer hpeer)
  simp [outcome, hpeer, Peer.drops, hconfig, hclosed]

theorem outcome_eq_delivered (hdeliver : ∀ origin, w.origins[p]? = some origin → origin.config.onClose = .deliver)
    (payload : Bytes) (delay : Delay) : w.outcome (.delivery p payload delay) = .delivered := by
  cases hpeer : w.peers[p]? with
  | none => simp [outcome, hpeer]
  | some peer =>
    have hconfig : peer.config.onClose = .deliver := hdeliver peer.origin (origin_of_peer hpeer)
    simp [outcome, hpeer, Peer.drops, hconfig]

theorem isClosed_setPeer_self {old : Peer} (hp : w.peers[p]? = some old) (new : Peer) :
    (w.setPeer p new).isClosed p = new.isClosed :=
  isClosed_eq (List.getElem?_set_self (List.getElem?_eq_some_iff.1 hp).1)

theorem isClosed_setPeer {q : Nat} {old new : Peer} (hq : w.peers[q]? = some old)
    (hc : old.isClosed = true → new.isClosed = true) (hp : w.isClosed p = true) :
    (w.setPeer q new).isClosed p = true := by
  by_cases hqp : q = p
  · subst hqp
    rw [isClosed_eq hq] at hp
    rw [isClosed_setPeer_self hq, hc hp]
  · rwa [isClosed, setPeer, List.getElem?_set_ne hqp]

theorem isClosed_setPeer_of_eq {q : Nat} {old new : Peer} (hq : w.peers[q]? = some old)
    (hc : new.isClosed = old.isClosed) : (w.setPeer q new).isClosed p = w.isClosed p := by
  by_cases hqp : q = p
  · subst hqp
    rw [isClosed_setPeer_self hq, isClosed_eq hq, hc]
  · rw [isClosed, isClosed, setPeer, List.getElem?_set_ne hqp]

/-- A world that came after `w₁` and not after `w₂`. -/
structure Between (w₁ w w₂ : World ε ρ) : Prop where
  isClosed : ∀ p, w₁.isClosed p = true → w.isClosed p = true
  origins : ∀ (p : Nat) (origin : Peer), w.origins[p]? = some origin → w₂.origins[p]? = some origin

section
variable [Consensus ε]

theorem handler_tick (hp : w.isClosed p = true) (now : Instant) :
    handler (.tick p) now w = .ok ⟨w, w.outcome (.tick p), []⟩ := by
  obtain ⟨peer, hpeer, hclosed⟩ := exists_of_isClosed hp
  simp only [handler, outcome, hp, update_eq_closed hpeer hclosed]
  cases w.isAlive p <;> rfl

end

end World

namespace Simulation

variable {ε ρ : Type}

/-- The messages that arrived at a peer since an earlier state, in order. -/
def arrivalsSince (s s₁ : Simulation ε ρ) (p : Nat) : List Arrival :=
  (s.arrivals.drop s₁.arrivals.length).filter fun x => x.peer = p

variable [NormalSource ρ] [Consensus ε] {s s' s₁ : Simulation ε ρ} {a : Action} {as : List Action}

theorem Trace.origins_getElem? (htrace : Trace s as s') {p : Nat} {origin : Peer}
    (hp : s.world.origins[p]? = some origin) : s'.world.origins[p]? = some origin := by
  obtain ⟨hlt, rfl⟩ := List.getElem?_eq_some_iff.1 hp
  exact List.prefix_iff_getElem?.1 htrace.origins_prefix p hlt

theorem Step.isClosed (hstep : Step s a s') {p : Nat} (hp : s.world.isClosed p = true) :
    s'.world.isClosed p = true := by
  cases hstep with
  | deliver _ _ hq | drop _ _ hq => exact World.isClosed_setPeer hq id hp
  | send hq =>
    rw [Machine.world_put]
    exact World.isClosed_setPeer (w := s.world.setSource _ _) hq id hp
  | close hq => exact World.isClosed_setPeer hq (fun _ => rfl) hp
  | tick | update =>
    rw [Machine.world_putAll]
    exact hp
  | addPeers =>
    obtain ⟨peer, hpeer, -⟩ := World.exists_of_isClosed hp
    have hlt := (List.getElem?_eq_some_iff.1 hpeer).1
    rw [World.isClosed, Machine.world_withWorld, List.getElem?_append_left hlt]
    exact hp
  | _ => exact hp

theorem Trace.isClosed (htrace : Trace s as s') {p : Nat} (hp : s.world.isClosed p = true) :
    s'.world.isClosed p = true :=
  htrace.induct (A := fun _ => True) (fun _ hs hstep => hstep.isClosed hs) (fun _ _ => trivial) hp

theorem Trace.isOpen (htrace : Trace s as s') {p : Nat} (hp : s'.world.isClosed p = false) :
    s.world.isClosed p = false := by
  cases h : s.world.isClosed p with
  | false => rfl
  | true => rw [htrace.isClosed h] at hp; cases hp

/-! ## What becomes of tasks -/

theorem Step.fired_cases (hstep : Step s a s') : s'.fired = s.fired ∨
    ∃ e, s'.fired = s.fired ++ [(max s.clock e.fireAt, e, s.world.outcome e.task)] := by
  cases hstep with
  | @deliver e rest p payload delay peer stats x hq ht hp hd =>
    exact .inr ⟨e, by simp [ht, World.outcome, hp, hd]⟩
  | @drop e rest p payload delay peer stats hq ht hp hd =>
    exact .inr ⟨e, by simp [ht, World.outcome, hp, hd]⟩
  | @tick e rest p peer x hq ht halive hp hopen =>
    exact .inr ⟨e, by simp [ht, World.outcome, World.isClosed_eq hp, halive, hopen]⟩
  | @idle e rest p outcome hq ht ho =>
    refine .inr ⟨e, ?_⟩
    rcases ho with ⟨rfl, hdead⟩ | ⟨rfl, halive, peer, hp, hclosed⟩
    · simp [ht, World.outcome, hdead]
    · simp [ht, World.outcome, World.isClosed_eq hp, halive, hclosed]
  | _ => exact .inl (by simp)

theorem Trace.fired_since (htrace : Trace s₁ as s) : ∃ fs, s.fired = s₁.fired ++ fs ∧
    ∀ x ∈ fs, ∃ w : World ε ρ, s₁.world.Between w s.world ∧ x.2.2 = w.outcome x.2.1.task := by
  induction htrace with
  | nil => exact ⟨[], (List.append_nil _).symm, by simp⟩
  | @cons s₁ s₂ s a as hstep htrace ih =>
    obtain ⟨fs, hfs, houtcome⟩ := ih
    -- what fired later fired in a world that came after the first one, too
    have hlater : ∀ x ∈ fs, ∃ w : World ε ρ, s₁.world.Between w s.world ∧ x.2.2 = w.outcome x.2.1.task := by
      intro x hx
      obtain ⟨w, hw, ho⟩ := houtcome x hx
      exact ⟨w, ⟨fun p hp => hw.isClosed p (hstep.isClosed hp), hw.origins⟩, ho⟩
    rcases hstep.fired_cases with heq | ⟨e, heq⟩
    · exact ⟨fs, by rw [hfs, heq], hlater⟩
    · refine ⟨_ :: fs, by rw [hfs, heq, List.append_assoc]; rfl, List.forall_mem_cons.2 ⟨?_, hlater⟩⟩
      exact ⟨s₁.world, ⟨fun _ => id, fun p origin hp => htrace.origins_getElem? (hstep.origins_getElem? hp)⟩, rfl⟩

theorem Trace.submitted_since (htrace : Trace s₁ as s) {p : Nat} (hp : s₁.world.isClosed p = true) :
    ∃ ss, s.submitted = s₁.submitted ++ ss ∧ ∀ x ∈ ss, x.2.task ≠ .tick p := by
  induction htrace with
  | nil => exact ⟨[], (List.append_nil _).symm, by simp⟩
  | @cons s₁ s₂ s a as hstep htrace ih =>
    obtain ⟨ss, hss, hne⟩ := ih (hstep.isClosed hp)
    rcases hstep.submitted_cases with heq | ⟨x, hputs⟩
    · exact ⟨ss, by rw [hss, heq], hne⟩
    · refine ⟨x :: ss, by rw [hss, hputs.submitted, List.append_assoc]; rfl, List.forall_mem_cons.2 ⟨?_, hne⟩⟩
      intro ht
      rw [hputs.isOpen p ht] at hp
      cases hp

theorem Trace.arrivals_since (htrace : Trace s₁ as s) :
    s.arrivals = s₁.arrivals ++ s.arrivals.drop s₁.arrivals.length ∧
      ∀ x ∈ s.arrivals.drop s₁.arrivals.length, ∃ w : World ε ρ, s₁.world.Between w s.world ∧
        x.outcome = w.outcome (.delivery x.peer x.payload x.delay) := by
  obtain ⟨fs, hfs, houtcome⟩ := htrace.fired_since
  have harrivals : s.arrivals = s₁.arrivals ++ fs.filterMap fun x =>
      (Message.of? x.2.1).map fun m => (⟨m, x.1, x.2.2⟩ : Arrival) := by
    rw [arrivals, hfs, List.filterMap_append, arrivals]
  rw [harrivals, List.drop_left]
  refine ⟨rfl, ?_⟩
  intro x hx
  obtain ⟨⟨clock, e, outcome⟩, he, heq⟩ := List.mem_filterMap.1 hx
  obtain ⟨m, hm, rfl⟩ := Option.map_eq_some_iff.1 heq
  obtain rfl := Message.of?_eq_some.1 hm
  exact houtcome _ he

/-! ## Peers at rest -/

/-- Whether a command closes a peer, or finds it closed. -/
def closes (s : Simulation ε ρ) (p : Nat) : Command → Prop
  | .close handle => s.world.peerOfHandle handle = some p
  | .closeMesh => ∃ m, s.world.mesh = some m ∧ p ∈ m.peers
  | _ => False

theorem Trace.isClosed_of_mem (htrace : Trace s as s') {p : Nat} (hp : .close p ∈ as) :
    s'.world.isClosed p = true := by
  induction htrace with
  | nil => cases hp
  | cons hstep htrace ih =>
    rcases List.mem_cons.1 hp with rfl | hp
    · refine htrace.isClosed ?_
      cases hstep with
      | @close _ peer hpeer => exact World.isClosed_setPeer_self hpeer { peer with signal := ⟨true⟩ }
    · exact ih hp

theorem isClosed_of_closes (hs : s.Sound) {command : Command} {p : Nat} (hcloses : s.closes p command)
    {answer : Answer} (h : s.apply command = .ok (answer, s')) : s'.world.isClosed p = true := by
  cases command with
  | close handle =>
    simp only [apply, bind_eq_ok, require_eq_ok, pure_eq_ok] at h
    obtain ⟨q, hq, heq⟩ := h
    cases heq
    obtain rfl : q = p := Option.some.inj (hq.symm.trans hcloses)
    exact (Trace.single (close_step hs (hs.world.peerOfHandle_lt hq))).isClosed_of_mem (List.mem_singleton.2 rfl)
  | closeMesh =>
    simp only [apply, bind_eq_ok, require_eq_ok, pure_eq_ok] at h
    obtain ⟨m, hm, heq⟩ := h
    cases heq
    obtain ⟨m', hm', hp⟩ := hcloses
    obtain rfl : m = m' := Option.some.inj (hm.symm.trans hm')
    exact (closeAll_trace hs (hs.world.mesh m hm)).isClosed_of_mem (List.mem_map_of_mem hp)
  | _ => cases hcloses

/-- What is true in `s` of a peer that drops what arrives and was closed in `s₁`, then being `old`: its
statistics are those of then but for the number of messages dropped, which has gone up by one with each
arrival, and no engine hears of a message that arrives. -/
structure Discards (s s₁ : Simulation ε ρ) (p : Nat) (old peer : Peer) : Prop where
  stats : peer.stats = { old.stats with dropped := peer.stats.dropped }
  dropped : peer.stats.dropped.toNat = old.stats.dropped.toNat + (s.arrivalsSince s₁ p).length
  outcomes : ∀ x ∈ s.arrivalsSince s₁ p, x.outcome = .dropped
  arrival : ∀ payload delay now, World.handler (.delivery p payload delay) now s.world =
    peer.stats.recordDrop.map fun stats =>
      ⟨s.world.setPeer p { peer with stats, inFlight := peer.inFlight - 1 }, .dropped, []⟩

/-- What is true in `s` of a peer that delivers what arrives and was closed in `s₁`, then being `old`: it
has dropped nothing, counts each arrival since, and hands each message that arrives to its engine. -/
structure Forwards (s s₁ : Simulation ε ρ) (p : Nat) (old peer : Peer) : Prop where
  dropped : peer.stats.dropped = 0
  messages : peer.stats.messages.toNat = old.stats.messages.toNat + (s.arrivalsSince s₁ p).length
  bytes : peer.stats.bytes.toNat =
    old.stats.bytes.toNat + ((s.arrivalsSince s₁ p).map fun x => x.payload.length).sum
  outcomes : ∀ x ∈ s.arrivalsSince s₁ p, x.outcome = .delivered
  arrival : ∃ x, s.world.engines[peer.engine]? = some x ∧ ∀ payload delay now,
    World.handler (.delivery p payload delay) now s.world =
      (peer.stats.recordDelivery delay payload.length).map fun stats =>
        ⟨(s.world.setPeer p { peer with stats, inFlight := peer.inFlight - 1 }).setEngine peer.engine
          (Consensus.receive x payload).1, .delivered, []⟩

/-- What is true in `s` of a peer that was closed in `s₁`, then being `old`. -/
structure ClosedSince (s s₁ : Simulation ε ρ) (p : Nat) (old peer : Peer) : Prop where
  isClosed : peer.isClosed = true
  origin : peer.origin = old.origin
  update : ∀ now, s.world.update p now = ⟨s.world, .closed, []⟩
  command : ∀ handle, s.world.peerOfHandle handle = some p → s.apply (.update handle) = .ok (.ticked .closed, s)
  updateAll : ∀ peers, s.updateAll peers = s.updateAll (peers.filter fun q => q ≠ p)
  tick : ∀ now, ∃ outcome, World.handler (.tick p) now s.world = .ok ⟨s.world, outcome, []⟩ ∧
    (outcome = .expired ∨ outcome = .ticked .closed)
  ticks : ∀ x ∈ s.fired.drop s₁.fired.length, x.2.1.task = .tick p →
    x.2.2 = .expired ∨ x.2.2 = .ticked .closed
  unarmed : ∀ x ∈ s.submitted.drop s₁.submitted.length, x.2.task ≠ .tick p
  discards : old.config.onClose = .drop → s.Discards s₁ p old peer
  forwards : old.config.onClose = .deliver → s.Forwards s₁ p old peer

omit [NormalSource ρ] in
theorem update_of_isClosed {p : Nat} (hp : s.world.isClosed p = true) (now : Instant) :
    s.world.update p now = ⟨s.world, .closed, []⟩ := by
  obtain ⟨peer, hpeer, hclosed⟩ := World.exists_of_isClosed hp
  exact World.update_eq_closed hpeer hclosed now

omit [NormalSource ρ] in
theorem update_eq_of_isClosed {p : Nat} (hp : s.world.isClosed p = true) : s.update p = (.closed, s) := by
  rw [update, update_of_isClosed hp]
  rfl

omit [NormalSource ρ] in
theorem isClosed_update (p : Nat) : (s.update p).2.world.isClosed = s.world.isClosed := by
  funext q
  rw [World.isClosed, peers_update, World.isClosed]

omit [NormalSource ρ] in
theorem updateAll_of_isClosed {p : Nat} (hp : s.world.isClosed p = true) (peers : List Nat) :
    s.updateAll peers = s.updateAll (peers.filter fun q => q ≠ p) := by
  induction peers generalizing s with
  | nil => rfl
  | cons q qs ih =>
    by_cases hq : q = p
    · subst hq
      rw [List.filter_cons_of_neg (by simp), updateAll, List.foldl_cons, update_eq_of_isClosed hp]
      exact ih hp
    · rw [List.filter_cons_of_pos (by simpa using hq)]
      exact ih (s := (s.update q).2) (by rwa [isClosed_update])

theorem Trace.arrivalsAt_eq (htrace : Trace s₁ as s) (p : Nat) :
    s.arrivalsAt p = s₁.arrivalsAt p ++ s.arrivalsSince s₁ p := by
  rw [arrivalsAt, htrace.arrivals_since.1, List.filter_append]
  rfl

theorem Trace.outcome_since (htrace : Trace s₁ as s) {p : Nat} {x : Arrival} (hx : x ∈ s.arrivalsSince s₁ p) :
    ∃ w : World ε ρ, s₁.world.Between w s.world ∧ x.outcome = w.outcome (.delivery p x.payload x.delay) := by
  obtain ⟨hmem, hpeer⟩ := List.mem_filter.1 hx
  obtain ⟨w, hw, ho⟩ := htrace.arrivals_since.2 x hmem
  obtain rfl : x.peer = p := by simpa using hpeer
  exact ⟨w, hw, ho⟩

theorem Trace.discards (htrace : Trace s₁ as s) (hs₁ : s₁.Counted) (hs : s.Counted) {p : Nat} {old peer : Peer}
    (hold : s₁.world.peers[p]? = some old) (hpeer : s.world.peers[p]? = some peer)
    (hclosed₁ : s₁.world.isClosed p = true) (hclosed : peer.isClosed = true)
    (hdrop : peer.config.onClose = .drop) : s.Discards s₁ p old peer := by
  have houtcomes : ∀ x ∈ s.arrivalsSince s₁ p, x.outcome = .dropped := by
    intro x hx
    obtain ⟨w, hw, ho⟩ := htrace.outcome_since hx
    rw [ho]
    refine World.outcome_eq_dropped (hw.isClosed p hclosed₁) ?_ x.payload x.delay
    intro origin horigin
    obtain rfl := Option.some.inj ((hw.origins p origin horigin).symm.trans (World.origin_of_peer hpeer))
    exact hdrop
  have hdelivered : s.deliveredAt p = s₁.deliveredAt p := by
    have hnone : ((s.arrivalsSince s₁ p).filter fun x => !x.isDropped) = [] := by
      refine List.filter_eq_nil_iff.2 fun x hx => ?_
      simp [Arrival.isDropped, houtcomes x hx]
    rw [deliveredAt, htrace.arrivalsAt_eq, List.filter_append, hnone, List.append_nil, deliveredAt]
  have hdropped : s.droppedAt p = s₁.droppedAt p + (s.arrivalsSince s₁ p).length := by
    have hall : (s.arrivalsSince s₁ p).countP Arrival.isDropped = (s.arrivalsSince s₁ p).length := by
      refine List.countP_eq_length.2 fun x hx => ?_
      simp [Arrival.isDropped, houtcomes x hx]
    rw [droppedAt, htrace.arrivalsAt_eq, List.countP_append, hall, droppedAt]
  have hstats₁ := hs₁.stats p old.stats (World.stats_of_peer hold)
  have hstats := hs.stats p peer.stats (World.stats_of_peer hpeer)
  rw [hdelivered] at hstats
  refine ⟨hstats₁.eq_with_dropped hstats, ?_, houtcomes, ?_⟩
  · rw [hstats.dropped, hstats₁.dropped, hdropped]
  · intro payload delay now
    rw [World.handler, World.deliver_eq_drop hpeer (by simp [Peer.drops, hdrop, hclosed])]
    cases peer.stats.recordDrop <;> rfl

theorem Trace.forwards {s₀ : Simulation ε ρ} {as₀ : List Action} (htrace₀ : Trace s₀ as₀ s) (hs₀ : s₀.arrivals = [])
    (htrace : Trace s₁ as s) (hs₁ : s₁.Counted) (hs : s.Sound) (hcounted : s.Counted) {p : Nat} {old peer : Peer}
    (hold : s₁.world.peers[p]? = some old) (hpeer : s.world.peers[p]? = some peer)
    (hdeliver : peer.config.onClose = .deliver) : s.Forwards s₁ p old peer := by
  -- what arrived before the closing counts too: nothing has ever been dropped
  have houtcomes : ∀ x ∈ s.arrivalsAt p, x.outcome = .delivered := by
    intro x hx
    have hsince : x ∈ s.arrivalsSince s₀ p := by
      rwa [htrace₀.arrivalsAt_eq, arrivalsAt, hs₀, List.filter_nil, List.nil_append] at hx
    obtain ⟨w, hw, ho⟩ := htrace₀.outcome_since hsince
    rw [ho]
    refine World.outcome_eq_delivered ?_ x.payload x.delay
    intro origin horigin
    obtain rfl := Option.some.inj ((hw.origins p origin horigin).symm.trans (World.origin_of_peer hpeer))
    exact hdeliver
  have hsince : ∀ x ∈ s.arrivalsSince s₁ p, x.outcome = .delivered := by
    intro x hx
    refine houtcomes x ?_
    rw [htrace.arrivalsAt_eq]
    exact List.mem_append_right _ hx
  have hdelivered : s.deliveredAt p = s₁.deliveredAt p ++ s.arrivalsSince s₁ p := by
    rw [deliveredAt, htrace.arrivalsAt_eq, List.filter_append, deliveredAt]
    congr 1
    exact List.filter_eq_self.2 fun x hx => by simp [Arrival.isDropped, hsince x hx]
  have hdropped : s.droppedAt p = 0 :=
    List.countP_eq_zero.2 fun x hx => by simp [Arrival.isDropped, houtcomes x hx]
  have hstats₁ := hs₁.stats p old.stats (World.stats_of_peer hold)
  have hstats := hcounted.stats p peer.stats (World.stats_of_peer hpeer)
  rw [hdelivered] at hstats
  refine ⟨UInt64.toNat.inj (by rw [hstats.dropped, hdropped]; rfl), ?_, ?_, hsince, ?_⟩
  · rw [hstats.messages, hstats₁.messages, List.length_map, List.length_map, List.length_append]
  · rw [hstats.bytes, hstats₁.bytes, List.map_append, List.map_append, List.sum_append,
      List.map_map (l := s.arrivalsSince s₁ p)]
    rfl
  · obtain ⟨x, hx⟩ : ∃ x, s.world.engines[peer.engine]? = some x :=
      ⟨_, List.getElem?_eq_getElem (hs.world.engines peer (List.mem_of_getElem? hpeer))⟩
    refine ⟨x, hx, ?_⟩
    intro payload delay now
    rw [World.handler, World.deliver_eq hpeer hx (by simp [Peer.drops, hdeliver])]
    cases peer.stats.recordDelivery delay payload.length <;> rfl

/-- Whatever follows the command that closes a peer, the peer stays closed. Updating it says so and does
nothing, no more ticks are put into the queue for it, and those that are there do nothing. Messages that
arrive are all dropped or all delivered, as its configuration says. -/
theorem closed_for_good {clock : Instant} {engines : List ε} {before after : List Command} {command : Command}
    {answers₀ answers : List Answer} {answer : Answer} {s₀ : Simulation ε ρ} {p : Nat}
    (hbefore : (start clock engines).run before = .ok (answers₀, s₀)) (hcloses : s₀.closes p command)
    (hclose : s₀.apply command = .ok (answer, s₁)) (hafter : s₁.run after = .ok (answers, s)) :
    ∃ old peer, s₁.world.peers[p]? = some old ∧ s.world.peers[p]? = some peer ∧ s.ClosedSince s₁ p old peer := by
  obtain ⟨as₀, htrace₀, -, -⟩ := run_trace (.start clock engines) hbefore
  have hs₀ := htrace₀.sound (.start clock engines)
  obtain ⟨as₁, htrace₁, -, -⟩ := apply_actions hs₀ hclose
  have hwhole := htrace₀.append htrace₁
  have hs₁ := htrace₁.sound hs₀
  obtain ⟨as, htrace, -, -⟩ := run_trace hs₁ hafter
  have hs := htrace.sound hs₁
  have hcounted₁ := hwhole.counted (.start clock engines) (counted_start clock engines)
  have hcounted := htrace.counted hs₁ hcounted₁
  have hclosed₁ := isClosed_of_closes hs₀ hcloses hclose
  have hclosed := htrace.isClosed hclosed₁
  obtain ⟨old, hold, -⟩ := World.exists_of_isClosed hclosed₁
  obtain ⟨peer, hpeer, hisClosed⟩ := World.exists_of_isClosed hclosed
  have horigin : peer.origin = old.origin :=
    Option.some.inj ((World.origin_of_peer hpeer).symm.trans (htrace.origins_getElem? (World.origin_of_peer hold)))
  have hconfig : peer.origin.config = old.origin.config := congrArg Peer.config horigin
  refine ⟨old, peer, hold, hpeer, ?_⟩
  constructor
  case isClosed => exact hisClosed
  case origin => exact horigin
  case update => exact update_of_isClosed hclosed
  case command =>
    intro handle hhandle
    simp only [apply, hhandle, require, bind, Except.bind, update_eq_of_isClosed hclosed]
    rfl
  case updateAll => exact updateAll_of_isClosed hclosed
  case tick => exact fun now => ⟨_, World.handler_tick hclosed now, World.outcome_tick hclosed⟩
  case ticks =>
    obtain ⟨fs, hfired, houtcomes⟩ := htrace.fired_since
    rw [hfired, List.drop_left]
    intro x hx htask
    obtain ⟨w, hw, ho⟩ := houtcomes x hx
    rw [ho, htask]
    exact World.outcome_tick (hw.isClosed p hclosed₁)
  case unarmed =>
    obtain ⟨ss, hsubmitted, hne⟩ := htrace.submitted_since hclosed₁
    rw [hsubmitted, List.drop_left]
    exact hne
  case discards =>
    intro hdrop
    exact htrace.discards hcounted₁ hcounted hold hpeer hclosed₁ hisClosed (hconfig ▸ hdrop)
  case forwards =>
    intro hdeliver
    exact (hwhole.append htrace).forwards rfl htrace hcounted₁ hs hcounted hold hpeer (hconfig ▸ hdeliver)

/-- A peer that updates its engine and has two messages under way, one of which arrives. -/
def inUse : List Command :=
  [.newPeer 0 { jittery with onClose := .drop } none, .update 0, .send 0 [1], .send 0 [2, 3], .time (.runAll 1)]

def afterwards : List Command := [.send 0 [4], .update 0, .time (.runAll 3)]

theorem closed_for_good_inUse : ∃ answers₀ s₀ answer s₁ answers s old peer,
    soloRecorder.run inUse = .ok (answers₀, s₀) ∧ s₀.apply (.close 0) = .ok (answer, s₁) ∧
      s₁.run afterwards = .ok (answers, s) ∧ s.ClosedSince s₁ 0 old peer ∧
      peer.stats.dropped.toNat = old.stats.dropped.toNat + 2 := by
  obtain ⟨answers₀, s₀, ⟨⟨answer, s₁⟩, answers, s⟩, hbefore, hfind⟩ := exists_of_run soloRecorder inUse
    (fun s₀ => ((s₀.apply (.close 0)).toOption.bind fun r => (r.2.run afterwards).toOption.map (r, ·)).filter
      fun r => s₀.world.peerOfHandle 0 = some 0 && (r.2.2.arrivalsSince r.1.2 0).length = 2 &&
        (r.1.2.world.peers[0]?).any fun peer => peer.config.onClose = .drop) (by decide +kernel)
  obtain ⟨hfound, hcheck⟩ := Option.filter_eq_some_iff.1 hfind
  obtain ⟨⟨answer', s₁'⟩, hclose, hfound⟩ := Option.bind_eq_some_iff.1 hfound
  obtain ⟨⟨answers', s'⟩, hafter, heq⟩ := Option.map_eq_some_iff.1 hfound
  cases heq
  simp only [Bool.and_eq_true, decide_eq_true_eq] at hcheck
  obtain ⟨⟨hhandle, harrivals⟩, hpolicy⟩ := hcheck
  have hclose := toOption_eq_some.1 hclose
  have hafter := toOption_eq_some.1 hafter
  have hcloses : s₀.closes 0 (.close 0) := hhandle
  obtain ⟨old, peer, hold, hpeer, hsince⟩ := closed_for_good hbefore hcloses hclose hafter
  rw [hold, Option.any_some, decide_eq_true_eq] at hpolicy
  refine ⟨answers₀, s₀, answer, s₁, answers, s, old, peer, hbefore, hclose, hafter, hsince, ?_⟩
  rw [(hsince.discards hpolicy).dropped, harrivals]

end Simulation

end VirtualMesh

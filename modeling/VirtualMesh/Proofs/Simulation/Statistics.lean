import VirtualMesh.Proofs.Simulation.Messages
import VirtualMesh.Proofs.Stats

/-!
# Statistics of a run

No message is lost and none counted twice: what was sent through a peer is what the peer delivered,
what it dropped and what is under way. The statistics of a peer are those of the deliveries in the
history, and the delay that is recorded for a message is the time that it took.
-/

namespace VirtualMesh

theorem World.stats_handler {ε ρ : Type} [Consensus ε] {task : Task} {clock : Instant} {w : World ε ρ}
    {r : Reaction Task Outcome (World ε ρ)} (h : World.handler task clock w = .ok r) {q : Nat}
    (hq : task.peer ≠ q) : r.world.stats[q]? = w.stats[q]? := by
  rw [stats, List.getElem?_map, getElem?_peers_handler h hq, stats, List.getElem?_map]

theorem World.outcome_delivery {ε ρ : Type} [Consensus ε] {w : World ε ρ} {p : Nat} {peer : Peer}
    (hp : w.peers[p]? = some peer) {payload : Bytes} {delay : Delay} {clock : Instant}
    {r : Reaction Task Outcome (World ε ρ)} (h : World.handler (.delivery p payload delay) clock w = .ok r) :
    r.outcome = if peer.drops then .dropped else .delivered := by
  rw [handler, deliver_eq_map hp] at h
  cases harrive : peer.arrive delay payload.length with
  | error f => rw [harrive] at h; cases h
  | ok arrived =>
    rw [harrive] at h
    cases h
    cases peer.drops <;> rfl

namespace Simulation

variable {ε ρ : Type}

/-- The messages that arrived at a peer and were not dropped, in the order in which they did. -/
def deliveredAt (s : Simulation ε ρ) (p : Nat) : List Arrival := (s.arrivalsAt p).filter fun x => !x.isDropped

def droppedAt (s : Simulation ε ρ) (p : Nat) : Nat := (s.arrivalsAt p).countP Arrival.isDropped

/-- Every message that arrived was delivered or dropped, and the statistics of each peer say so. -/
structure Counted (s : Simulation ε ρ) : Prop where
  outcomes : ∀ x ∈ s.arrivals, x.outcome = .delivered ∨ x.outcome = .dropped
  stats : ∀ p (stats : PeerStats), s.world.stats[p]? = some stats →
    stats.Describes ((s.deliveredAt p).map fun x => (x.delay, x.payload.length)) (s.droppedAt p)

theorem counted_start (clock : Instant) (engines : List ε) :
    Counted (start clock engines : Simulation ε ρ) where
  outcomes _ hx := nomatch hx
  stats _ _ hp := nomatch hp

theorem length_arrivalsAt (s : Simulation ε ρ) (p : Nat) :
    (s.arrivalsAt p).length = (s.deliveredAt p).length + s.droppedAt p := by
  rw [deliveredAt, ← List.countP_eq_length_filter, droppedAt, Nat.add_comm]
  have hsplit := List.length_eq_countP_add_countP Arrival.isDropped (l := s.arrivalsAt p)
  simpa using hsplit

theorem Counted.outcome_arrivalsAt {s : Simulation ε ρ} (h : s.Counted) {p : Nat} :
    ∀ x ∈ s.arrivalsAt p, x.outcome = .delivered ∨ x.outcome = .dropped := fun x hx =>
  h.outcomes x (List.mem_filter.1 hx).1

theorem Counted.conserved {s : Simulation ε ρ} (hs : s.Sound) (h : s.Counted) {p : Nat} {stats : PeerStats}
    (hp : s.world.stats[p]? = some stats) :
    s.sent.countP (fun x => x.peer = p) = stats.messages.toNat + stats.dropped.toNat +
      s.underway.countP fun m => m.peer = p := by
  have hdescribes := h.stats p stats hp
  have hperm := (messages_perm hs.ledger).countP_eq fun m => decide (m.peer = p)
  rw [List.countP_append, List.countP_map, List.countP_map] at hperm
  have hat : s.arrivals.countP (fun x => x.peer = p) = (s.arrivalsAt p).length :=
    List.countP_eq_length_filter
  rw [hdescribes.messages, hdescribes.dropped, List.length_map, ← length_arrivalsAt, ← hat]
  exact hperm.symm

variable [NormalSource ρ] [Consensus ε] {s s' : Simulation ε ρ} {a : Action} {as : List Action}

theorem Step.counted (hs : s.Sound) (h : s.Counted) (hstep : Step s a s') : s'.Counted := by
  rcases hstep.arrivals_cases with ⟨harrivals, n, hstats⟩ | ⟨x, old, new, harrivals, hold, hstats, hnew⟩
  · have hat : ∀ p, s'.arrivalsAt p = s.arrivalsAt p := fun p => by rw [arrivalsAt, harrivals, arrivalsAt]
    refine ⟨by rw [harrivals]; exact h.outcomes, ?_⟩
    intro p stats hp
    simp only [deliveredAt, droppedAt, hat]
    rw [hstats] at hp
    by_cases hlt : p < s.world.stats.length
    · rw [List.getElem?_append_left hlt] at hp
      exact h.stats p stats hp
    · rw [List.getElem?_append_right (by omega)] at hp
      obtain rfl := List.eq_of_mem_replicate (List.mem_of_getElem? hp)
      have hle : s.world.peers.length ≤ p := by simpa [World.stats] using hlt
      rw [hs.arrivalsAt_eq_nil hle]
      exact PeerStats.describes_empty
  · have houtcome : x.outcome = .delivered ∨ x.outcome = .dropped := hnew.imp And.left And.left
    constructor
    case outcomes =>
      rw [harrivals]
      intro y hy
      rcases List.mem_append.1 hy with hy | hy
      · exact h.outcomes y hy
      · rw [List.mem_singleton.1 hy]
        exact houtcome
    case stats =>
      intro p stats hp
      rw [hstats] at hp
      by_cases hx : x.peer = p
      · subst hx
        rw [List.getElem?_set_self (List.getElem?_eq_some_iff.1 hold).1] at hp
        obtain rfl := Option.some.inj hp
        have hat : s'.arrivalsAt x.peer = s.arrivalsAt x.peer ++ [x] := by
          simp [arrivalsAt, harrivals]
        rcases hnew with ⟨ho, hrecord⟩ | ⟨ho, hrecord⟩
        · have hdescribes := (h.stats x.peer old hold).recordDelivery hrecord
          simpa [deliveredAt, droppedAt, hat, Arrival.isDropped, ho] using hdescribes
        · have hdescribes := (h.stats x.peer old hold).recordDrop hrecord
          simpa [deliveredAt, droppedAt, hat, Arrival.isDropped, ho] using hdescribes
      · have hat : s'.arrivalsAt p = s.arrivalsAt p := by simp [arrivalsAt, harrivals, hx]
        rw [List.getElem?_set_ne hx] at hp
        simp only [deliveredAt, droppedAt, hat]
        exact h.stats p stats hp

theorem Trace.counted (htrace : Trace s as s') (hs : s.Sound) (h : s.Counted) : s'.Counted :=
  (htrace.induct (P := fun s => s.Sound ∧ s.Counted) (A := fun _ => True)
    (fun _ h hstep => ⟨hstep.sound h.1, hstep.counted h.1 h.2⟩) (fun _ _ => trivial) ⟨hs, h⟩).2

theorem Step.counts_le (hstep : Step s a s') {p : Nat} {stats : PeerStats}
    (hp : s.world.stats[p]? = some stats) :
    ∃ stats', s'.world.stats[p]? = some stats' ∧ stats.CountsLE stats' := by
  rcases hstep.arrivals_cases with ⟨-, n, hstats⟩ | ⟨x, old, new, -, hold, hstats, hnew⟩
  · rw [hstats, List.getElem?_append_left (List.getElem?_eq_some_iff.1 hp).1]
    exact ⟨stats, hp, .refl stats⟩
  · rw [hstats]
    by_cases hx : x.peer = p
    · subst hx
      rw [List.getElem?_set_self (List.getElem?_eq_some_iff.1 hold).1]
      obtain rfl : old = stats := Option.some.inj (hold.symm.trans hp)
      refine ⟨new, rfl, ?_⟩
      rcases hnew with ⟨-, hrecord⟩ | ⟨-, hrecord⟩
      · exact .recordDelivery hrecord
      · exact .recordDrop hrecord
    · rw [List.getElem?_set_ne hx]
      exact ⟨stats, hp, .refl stats⟩

theorem Trace.counts_le (htrace : Trace s as s') {p : Nat} {stats : PeerStats}
    (hp : s.world.stats[p]? = some stats) :
    ∃ stats', s'.world.stats[p]? = some stats' ∧ stats.CountsLE stats' := by
  induction htrace generalizing stats with
  | nil => exact ⟨stats, hp, .refl stats⟩
  | cons hstep _ ih =>
    obtain ⟨stats₁, hp₁, hle₁⟩ := hstep.counts_le hp
    obtain ⟨stats₂, hp₂, hle₂⟩ := ih hp₁
    exact ⟨stats₂, hp₂, hle₁.trans hle₂⟩

theorem counted_of_run {clock : Instant} {engines : List ε} {commands : List Command}
    {answers : List Answer} (hrun : (start clock engines).run commands = .ok (answers, s)) : s.Counted := by
  obtain ⟨as, htrace, -, -⟩ := run_trace (.start clock engines) hrun
  exact htrace.counted (.start clock engines) (counted_start clock engines)

/-- In every state that commands lead to, what was sent through a peer is counted by it or under way.
No command lowers a count, and no task changes the statistics of more than one peer. -/
theorem messages_conserved {clock : Instant} {engines : List ε} {commands : List Command}
    {answers : List Answer} (hrun : (start clock engines).run commands = .ok (answers, s)) :
    (∀ (p : Nat) (stats : PeerStats), s.world.stats[p]? = some stats →
      (collect sends (start clock engines : Simulation ε ρ) commands).countP (fun m => m.1 = p) =
        stats.messages.toNat + stats.dropped.toNat + s.underway.countP fun m => m.peer = p) ∧
    (∀ (command : Command) (answer : Answer) (s' : Simulation ε ρ), s.apply command = .ok (answer, s') →
      ∀ (p : Nat) (stats : PeerStats), s.world.stats[p]? = some stats →
        ∃ stats', s'.world.stats[p]? = some stats' ∧ stats.CountsLE stats') ∧
    (∀ (task : Task) (now : Instant) (r : Reaction Task Outcome (World ε ρ)),
      World.handler task now s.world = .ok r →
        ∃ p : Nat, ∀ q, q ≠ p → r.world.stats[q]? = s.world.stats[q]?) := by
  have hs := sound_of_run hrun
  refine ⟨?_, ?_, ?_⟩
  · intro p stats hp
    have hcounted := counted_of_run hrun
    rw [← map_sent_of_run hrun, List.countP_map]
    exact hcounted.conserved hs hp
  · intro command answer s' happly p stats hp
    obtain ⟨bs, htrace', -, -⟩ := apply_actions hs happly
    exact htrace'.counts_le hp
  · intro task now r hr
    exact ⟨task.peer, fun q hq => World.stats_handler hr hq.symm⟩

/-- Three messages through a peer that is closed when one of them has arrived, and drops the next. -/
def closedEarly : List Command :=
  [.newPeer 0 { jittery with onClose := .drop } none, .send 0 [1], .send 0 [2, 3], .time (.runAll 1), .close 0, .send 0 [4],
    .time (.runAll 1)]

theorem messages_conserved_closedEarly : ∃ answers s stats,
    soloRecorder.run closedEarly = .ok (answers, s) ∧ s.world.stats[0]? = some stats ∧
      3 = stats.messages.toNat + stats.dropped.toNat + s.underway.countP fun m => m.peer = 0 := by
  obtain ⟨answers, s, stats, hrun, hstats⟩ := exists_of_run soloRecorder closedEarly
    (fun s => s.world.stats[0]?) (by decide +kernel)
  have hsends : (collect sends soloRecorder closedEarly).countP (fun m => m.1 = 0) = 3 := by
    decide +kernel
  refine ⟨answers, s, stats, hrun, hstats, ?_⟩
  rw [← hsends]
  exact (messages_conserved hrun).1 0 stats hstats

/-- In every state that commands lead to, each message that arrived was delivered or dropped, and one that arrives next
is dropped if its peer is closed and drops messages. The statistics of a peer are those of the messages that were not
dropped, and the delay of each message is the time from its sending to its arrival. -/
theorem statistics_of_history {clock : Instant} {engines : List ε} {commands : List Command}
    {answers : List Answer} (hrun : (start clock engines).run commands = .ok (answers, s)) {p : Nat}
    {peer : Peer} (hp : s.world.peers[p]? = some peer) :
    (∀ x ∈ s.arrivalsAt p, x.outcome = .delivered ∨ x.outcome = .dropped) ∧
    (∀ payload delay now (r : Reaction Task Outcome (World ε ρ)),
      World.handler (.delivery p payload delay) now s.world = .ok r →
        r.outcome = if peer.drops then .dropped else .delivered) ∧
    peer.stats.Describes ((s.deliveredAt p).map fun x => (x.delay, x.payload.length)) (s.droppedAt p) ∧
    (∀ x ∈ s.arrivalsAt p, ∃ y ∈ s.sent, y.toMessage = x.toMessage ∧ ∃ span : Duration,
      x.clock.nanos = y.clock.nanos + span.nanos ∧ Delay.ofDuration span = x.delay.maxZero) ∧
    (peer.config.negative = .clamp →
      (∀ x ∈ s.arrivalsAt p, 0 ≤ x.delay.nanos) ∧
      (∀ d, peer.stats.latencies.min = some d → 0 ≤ d.nanos) ∧
      peer.stats.latencies.total.nanos =
        min ((s.deliveredAt p).map fun x => x.delay.nanos).sum (2 ^ 63 - 1)) := by
  have hs := sound_of_run hrun
  have hdrawn := drawn_of_run hrun
  have hcounted := counted_of_run hrun
  have hdescribes := hcounted.stats p peer.stats (World.stats_of_peer hp)
  refine ⟨hcounted.outcome_arrivalsAt, fun payload delay now r hr => World.outcome_delivery hp hr, hdescribes, ?_, ?_⟩
  · intro x hx
    obtain ⟨y, hy, heq, hclock⟩ := hs.sending_of_arrival hdrawn (List.mem_filter.1 hx).1
    refine ⟨y, hy, heq, y.delay.clamped, hclock, ?_⟩
    rw [Delay.ofDuration_clamped, heq]
  · intro hclamp
    have hnonneg : ∀ x ∈ s.arrivalsAt p, 0 ≤ x.delay.nanos := by
      intro x hx
      obtain ⟨hx, hpeer⟩ := List.mem_filter.1 hx
      obtain ⟨y, hy, heq, -⟩ := hs.sending_of_arrival hdrawn hx
      obtain ⟨-, origin, source, horigin, hdelay⟩ := hdrawn y hy
      have hyp : y.peer = p := by rw [heq]; simpa using hpeer
      rw [hyp, World.origins, List.getElem?_map, hp] at horigin
      obtain rfl : peer.origin = origin := Option.some.inj horigin
      have hconfig : peer.origin.config.negative = .clamp := hclamp
      rw [← heq, hdelay, Peer.recorded, hconfig]
      exact Int.le_max_right _ _
    have hdelivered : ∀ x ∈ s.deliveredAt p, 0 ≤ x.delay.nanos := fun x hx =>
      hnonneg x (List.mem_filter.1 hx).1
    refine ⟨hnonneg, ?_, ?_⟩
    · intro d hd
      obtain ⟨hmem, -⟩ := hdescribes.latencies.least d hd
      rw [List.map_map] at hmem
      obtain ⟨x, hx, rfl⟩ := List.mem_map.1 hmem
      exact hdelivered x hx
    · rw [hdescribes.latencies.total, List.map_map, Delay.nanos_sum, List.map_map]
      · rfl
      · intro d hd
        obtain ⟨x, hx, rfl⟩ := List.mem_map.1 hd
        exact hdelivered x hx

/-- One message was delivered, one was dropped and one is still under way. -/
theorem statistics_of_history_closedEarly : ∃ answers s peer,
    soloRecorder.run closedEarly = .ok (answers, s) ∧ s.world.peers[0]? = some peer ∧
      (s.deliveredAt 0).map (fun x => (x.delay.nanos, x.payload.length)) = [(895642, 1)] ∧ s.droppedAt 0 = 1 ∧
      peer.stats.messages.toNat = 1 ∧ peer.stats.bytes.toNat = 1 ∧ peer.stats.dropped.toNat = 1 ∧
      peer.stats.latencies.total.nanos = 895642 := by
  obtain ⟨answers, s, peer, hrun, hfind⟩ := exists_of_run soloRecorder closedEarly
    (fun s => (s.world.peers[0]?).filter fun p => p.config.negative = .clamp &&
      (s.deliveredAt 0).map (fun x => (x.delay.nanos, x.payload.length)) = [(895642, 1)] && s.droppedAt 0 = 1)
    (by decide +kernel)
  obtain ⟨hp, hcheck⟩ := Option.filter_eq_some_iff.1 hfind
  simp only [Bool.and_eq_true, decide_eq_true_eq] at hcheck
  obtain ⟨⟨hclamp, hdelivered⟩, hdropped⟩ := hcheck
  obtain ⟨-, -, hdescribes, -, hclamped⟩ := statistics_of_history hrun hp
  obtain ⟨x, hx, hvalues⟩ := List.map_eq_singleton_iff.1 hdelivered
  obtain ⟨hdelay, hsize⟩ := Prod.mk.inj hvalues
  rw [hx, hdropped] at hdescribes
  have htotal := (hclamped hclamp).2.2
  rw [hx, List.map_singleton, List.sum_singleton, hdelay] at htotal
  exact ⟨answers, s, peer, hrun, hp, hdelivered, hdropped, hdescribes.messages,
    hdescribes.bytes.trans (by simpa using hsize), hdescribes.dropped, htotal⟩

end Simulation

end VirtualMesh

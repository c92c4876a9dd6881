import VirtualMesh.Proofs.Simulation.Run

/-!
# Messages

A message is sent at one time and arrives at a later one, where its peer hands it on to the engine
or drops it. Here both are read off the history of a machine, with what each action adds to them:
a message that is sent gets the delay that its peer draws, and one that arrives is counted by its
peer and by no other.
-/

namespace VirtualMesh

structure Message where
  number : Nat
  fireAt : Instant
  peer : Nat
  payload : Bytes
  delay : Delay

/-- A message with the clock at which it was sent. -/
structure Sending extends Message where
  clock : Instant

/-- A message with the clock at which it arrived, and what came of it. -/
structure Arrival extends Message where
  clock : Instant
  outcome : Outcome

def Message.of? (e : Entry Task) : Option Message :=
  match e.task with
  | .delivery peer payload delay => some ⟨e.number, e.fireAt, peer, payload, delay⟩
  | .tick _ => none

theorem Message.of?_eq_some {e : Entry Task} {m : Message} :
    of? e = some m ↔ e = ⟨m.fireAt, m.number, .delivery m.peer m.payload m.delay⟩ := by
  obtain ⟨fireAt, number, task⟩ := e
  cases task with
  | delivery peer payload delay =>
    obtain ⟨n, t, p, bytes, d⟩ := m
    simp only [of?, Option.some.injEq, mk.injEq, Entry.mk.injEq, Task.delivery.injEq]
    exact and_left_comm
  | tick peer => simp [of?]

theorem Message.of?_entryOf_tick {ε ρ : Type} {s : Simulation ε ρ} {y : Submission Task} {p : Nat}
    (hy : y.task = .tick p) : of? (s.entryOf y) = none := by
  rw [of?, Machine.entryOf, hy]

def Sending.due (x : Sending) : Int := x.clock.nanos + x.delay.clamped.nanos

def Arrival.isDelivered (x : Arrival) : Bool := x.outcome = .delivered

def Arrival.isDropped (x : Arrival) : Bool := x.outcome = .dropped

def World.stats {ε ρ : Type} (w : World ε ρ) : List PeerStats := w.peers.map Peer.stats

theorem World.stats_of_peer {ε ρ : Type} {w : World ε ρ} {p : Nat} {peer : Peer} (hp : w.peers[p]? = some peer) :
    w.stats[p]? = some peer.stats := by
  rw [stats, List.getElem?_map, hp]
  rfl

def World.leadsTo {ε ρ : Type} (w : World ε ρ) (engine peer : Nat) : Bool :=
  (w.peers[peer]?).any fun p => p.engine = engine

/-- What an action may make of engine `i`, other than by a message that arrives. -/
inductive World.Tended {ε ρ : Type} [Consensus ε] (w : World ε ρ) (i : Nat) (a : Action) (x : ε) : ε → Prop
  | alone : Tended w i a x x
  | update : Tended w i a x (Consensus.update x).1
  | receive {message : Bytes} (ha : a = .receive i message) : Tended w i a x (Consensus.receive x message).1
  | propose {state : State} {y : ε} {outgoing : List Outgoing} (ha : a = .propose i state)
      (hy : Consensus.propose x w.hasLink state = .ok (y, outgoing)) : Tended w i a x y
  | reject {error : ConsensusError} {y : ε} (ha : a = .reject i error)
      (hy : Consensus.reject? x error = some y) : Tended w i a x y
  | attach {links : List Nat} {y : ε} (hy : Consensus.attach? x links = some y) : Tended w i a x y

namespace Simulation

variable {ε ρ : Type}

section
variable (s : Simulation ε ρ)

def sent : List Sending :=
  s.submitted.filterMap fun x => (Message.of? x.2).map fun m => ⟨m, x.1⟩

def arrivals : List Arrival :=
  s.fired.filterMap fun x => (Message.of? x.2.1).map fun m => ⟨m, x.1, x.2.2⟩

/-- All messages that have yet to arrive, in the order in which they will. -/
def underway : List Message := s.queue.filterMap Message.of?

def arrivalsAt (p : Nat) : List Arrival := s.arrivals.filter fun x => x.peer = p

end

/-! ## The accounts of messages -/

section
variable {s : Simulation ε ρ}

theorem map_sent : s.sent.map Sending.toMessage = (s.submitted.map Prod.snd).filterMap Message.of? := by
  rw [sent, List.map_filterMap, List.filterMap_map]
  congr 1
  funext x
  simp [Function.comp_def]

theorem map_arrivals :
    s.arrivals.map Arrival.toMessage = (s.fired.map fun x => x.2.1).filterMap Message.of? := by
  rw [arrivals, List.map_filterMap, List.filterMap_map]
  congr 1
  funext x
  simp [Function.comp_def]

/-- Every message that was sent has arrived or is under way. -/
theorem messages_perm (h : s.Ledger) :
    (s.arrivals.map Arrival.toMessage ++ s.underway).Perm (s.sent.map Sending.toMessage) := by
  have hb := h.balanced.filterMap Message.of?
  rw [List.filterMap_append] at hb
  rw [map_sent, map_arrivals]
  exact hb

theorem exists_sent_of_arrival (h : s.Ledger) {x : Arrival} (hx : x ∈ s.arrivals) :
    ∃ y ∈ s.sent, y.toMessage = x.toMessage := by
  have hmem := (messages_perm h).mem_iff.1 (List.mem_append_left _ (List.mem_map_of_mem hx))
  exact List.mem_map.1 hmem

theorem mem_sent {x : Sending} : x ∈ s.sent ↔
    (x.clock, ⟨x.fireAt, x.number, .delivery x.peer x.payload x.delay⟩) ∈ s.submitted := by
  rw [sent, List.mem_filterMap]
  constructor
  · rintro ⟨⟨clock, e⟩, he, heq⟩
    obtain ⟨m, hm, rfl⟩ := Option.map_eq_some_iff.1 heq
    obtain rfl := Message.of?_eq_some.1 hm
    exact he
  · intro hx
    exact ⟨_, hx, rfl⟩

theorem mem_arrivals {x : Arrival} : x ∈ s.arrivals ↔
    (x.clock, ⟨x.fireAt, x.number, .delivery x.peer x.payload x.delay⟩, x.outcome) ∈ s.fired := by
  rw [arrivals, List.mem_filterMap]
  constructor
  · rintro ⟨⟨clock, e, outcome⟩, he, heq⟩
    obtain ⟨m, hm, rfl⟩ := Option.map_eq_some_iff.1 heq
    obtain rfl := Message.of?_eq_some.1 hm
    exact he
  · intro hx
    exact ⟨_, hx, rfl⟩

theorem Sound.peer_lt_of_sent (h : s.Sound) {x : Sending} (hx : x ∈ s.sent) :
    x.peer < s.world.peers.length :=
  h.targets _ (mem_sent.1 hx)

theorem Sound.peer_lt_of_arrival (h : s.Sound) {x : Arrival} (hx : x ∈ s.arrivals) :
    x.peer < s.world.peers.length :=
  h.target_of_fired (mem_arrivals.1 hx)

theorem Sound.arrivalsAt_eq_nil (h : s.Sound) {p : Nat} (hp : s.world.peers.length ≤ p) :
    s.arrivalsAt p = [] := by
  refine List.filter_eq_nil_iff.2 ?_
  intro x hx
  have := h.peer_lt_of_arrival hx
  simp only [decide_eq_true_eq]
  omega

end

def DropsNothing (s : Simulation ε ρ) : Prop := ∀ p ∈ s.world.origins, p.config.onClose = .deliver

theorem DropsNothing.drops_eq_false {s : Simulation ε ρ} (h : s.DropsNothing) {p : Peer}
    (hp : p ∈ s.world.peers) : p.drops = false := by
  have hconfig : p.config.onClose = .deliver := h p.origin (List.mem_map_of_mem hp)
  simp [Peer.drops, hconfig]

/-! ## What each change does to the messages -/

section
variable (s : Simulation ε ρ) (w : World ε ρ) (t : Instant) (e : Entry Task) (rest : List (Entry Task))
  (outcome : Outcome) (x : Submission Task)

@[simp] theorem sent_withWorld : Simulation.sent (s.withWorld w) = s.sent := rfl

@[simp] theorem arrivals_withWorld : Simulation.arrivals (s.withWorld w) = s.arrivals := rfl

@[simp] theorem sent_moveTo : Simulation.sent (s.moveTo t) = s.sent := rfl

@[simp] theorem arrivals_moveTo : Simulation.arrivals (s.moveTo t) = s.arrivals := rfl

@[simp] theorem sent_popped : Simulation.sent (s.popped e rest outcome w) = s.sent := by
  rw [sent, Machine.submitted_popped, sent]

variable {s e} in
theorem arrivals_popped_delivery {p : Nat} {payload : Bytes} {delay : Delay}
    (ht : e.task = .delivery p payload delay) : Simulation.arrivals (s.popped e rest outcome w) =
      s.arrivals ++ [⟨⟨e.number, e.fireAt, p, payload, delay⟩, max s.clock e.fireAt, outcome⟩] := by
  rw [arrivals, Machine.fired_popped, List.filterMap_append, arrivals]
  simp [Message.of?, ht]

variable {s e} in
theorem arrivals_popped_tick {p : Nat} (ht : e.task = .tick p) :
    Simulation.arrivals (s.popped e rest outcome w) = s.arrivals := by
  rw [arrivals, Machine.fired_popped, List.filterMap_append, arrivals]
  simp [Message.of?, ht]

theorem sent_put : Simulation.sent (s.put x) = s.sent ++
    ((Message.of? (s.entryOf x)).map fun m => (⟨m, s.clock⟩ : Sending)).toList := by
  rw [sent, Machine.submitted_put, List.filterMap_append, sent]
  cases hm : Message.of? (s.entryOf x) <;> simp [hm]

@[simp] theorem arrivals_put : Simulation.arrivals (s.put x) = s.arrivals := by
  rw [arrivals, Machine.fired_put, arrivals]

@[simp] theorem arrivals_putAll (xs : List (Submission Task)) :
    Simulation.arrivals (Machine.putAll xs s) = s.arrivals := by
  rw [arrivals, Machine.fired_putAll, arrivals]

variable {s} in
/-- Ticks are no messages. -/
theorem sent_putAll_of_ticks {ss : List (Submission Task)} (h : ∀ y ∈ ss, ∃ p, y.task = .tick p) :
    Simulation.sent (Machine.putAll ss s) = s.sent := by
  induction ss generalizing s with
  | nil => rfl
  | cons y ss ih =>
    obtain ⟨⟨p, hy⟩, hss⟩ := List.forall_mem_cons.1 h
    rw [Machine.putAll_cons, ih hss, sent_put, Message.of?_entryOf_tick hy]
    exact List.append_nil _

@[simp] theorem sent_arm (d : Duration) (p : Nat) :
    Simulation.sent (Machine.putAll (Ticker.arm d (.tick p) t) s) = s.sent :=
  sent_putAll_of_ticks fun _ hy => ⟨p, (Ticker.fireAt_of_mem_arm hy).2⟩

end

variable [NormalSource ρ]

/-- The delay of each message is one that its peer drew, and the message is due when it has
passed. -/
def Drawn (s : Simulation ε ρ) : Prop :=
  ∀ x ∈ s.sent, x.fireAt.nanos = x.due ∧ ∃ (peer : Peer) (source : ρ),
    s.world.origins[x.peer]? = some peer ∧ x.delay = peer.recorded (peer.latency.sample source).1

variable [Consensus ε] {s s' : Simulation ε ρ} {a : Action} {as : List Action}

theorem Step.sent_cases (hstep : Step s a s') : a.sent? = none ∧ s'.sent = s.sent ∨
    ∃ (x : Sending) (peer : Peer) (source : ρ), a.sent? = some (x.peer, x.payload) ∧
      s'.sent = s.sent ++ [x] ∧ x.fireAt.nanos = x.due ∧ s.world.peers[x.peer]? = some peer ∧
      x.delay = peer.recorded (peer.latency.sample source).1 := by
  cases hstep with
  | @send p payload peer source fireAt hp hsource hat =>
    refine .inr ⟨⟨⟨s.submissions, fireAt, p, payload,
      peer.recorded (peer.latency.sample source).1⟩, s.clock⟩, peer, source, rfl, ?_, ?_, hp, rfl⟩
    · rw [sent_put, sent_withWorld]
      rfl
    · exact Instant.nanos_of_add? hat
  | _ => exact .inl ⟨rfl, by simp⟩

theorem Step.map_sent (hstep : Step s a s') : s'.sent.map (fun x => (x.peer, x.payload)) =
    s.sent.map (fun x => (x.peer, x.payload)) ++ a.sent?.toList := by
  rcases hstep.sent_cases with ⟨ha, hsent⟩ | ⟨x, -, -, ha, hsent, -⟩ <;> simp [ha, hsent]

theorem Trace.map_sent (htrace : Trace s as s') : s'.sent.map (fun x => (x.peer, x.payload)) =
    s.sent.map (fun x => (x.peer, x.payload)) ++ as.filterMap Action.sent? := by
  induction htrace with
  | nil => simp
  | @cons _ _ _ a _ hstep _ ih =>
    rw [ih, hstep.map_sent, List.append_assoc]
    cases ha : a.sent? <;> simp [ha]

theorem Step.drawn (hs : s.Drawn) (hstep : Step s a s') : s'.Drawn := by
  intro x hx
  have hold : x ∈ s.sent → x.fireAt.nanos = x.due ∧ ∃ (peer : Peer) (source : ρ),
      s'.world.origins[x.peer]? = some peer ∧
        x.delay = peer.recorded (peer.latency.sample source).1 := by
    intro hx
    obtain ⟨hdue, peer, source, hpeer, hdelay⟩ := hs x hx
    exact ⟨hdue, peer, source, hstep.origins_getElem? hpeer, hdelay⟩
  rcases hstep.sent_cases with ⟨-, hsent⟩ | ⟨y, peer, source, -, hsent, hdue, hpeer, hdelay⟩
  · exact hold (hsent ▸ hx)
  · rw [hsent] at hx
    rcases List.mem_append.1 hx with hx | hx
    · exact hold hx
    · obtain rfl := List.mem_singleton.1 hx
      have horigin : s.world.origins[x.peer]? = some peer.origin := by
        rw [World.origins, List.getElem?_map, hpeer]
        rfl
      exact ⟨hdue, peer.origin, source, hstep.origins_getElem? horigin, hdelay⟩

theorem Trace.drawn (htrace : Trace s as s') (hs : s.Drawn) : s'.Drawn :=
  htrace.induct (A := fun _ => True) (fun _ hs hstep => hstep.drawn hs) (fun _ _ => trivial) hs

omit [Consensus ε] in
theorem Sound.sending_of_arrival (hs : s.Sound) (hdrawn : s.Drawn) {x : Arrival} (hx : x ∈ s.arrivals) :
    ∃ y ∈ s.sent, y.toMessage = x.toMessage ∧ x.clock.nanos = y.due := by
  obtain ⟨y, hy, heq⟩ := exists_sent_of_arrival hs.ledger hx
  have hclock : x.clock = x.fireAt := hs.punctual.exact _ (mem_arrivals.1 hx)
  refine ⟨y, hy, heq, ?_⟩
  rw [← (hdrawn y hy).1, hclock, ← heq]

/-- Either nothing arrives and all statistics stay as they are, or one message arrives and only
the statistics of its peer change. -/
theorem Step.arrivals_cases (hstep : Step s a s') :
    (s'.arrivals = s.arrivals ∧ ∃ n, s'.world.stats = s.world.stats ++ List.replicate n .empty) ∨
    ∃ (x : Arrival) (stats stats' : PeerStats), s'.arrivals = s.arrivals ++ [x] ∧
      s.world.stats[x.peer]? = some stats ∧ s'.world.stats = s.world.stats.set x.peer stats' ∧
      (x.outcome = .delivered ∧ stats.recordDelivery x.delay x.payload.length = .ok stats' ∨
        x.outcome = .dropped ∧ stats.recordDrop = .ok stats') := by
  cases hstep with
  | @deliver e rest p payload delay peer stats x hq ht hp hd hs hx =>
    refine .inr ⟨_, peer.stats, stats, arrivals_popped_delivery _ rest .delivered ht,
      World.stats_of_peer hp, ?_, .inl ⟨rfl, hs⟩⟩
    simp only [Machine.world_popped, World.stats, World.setEngine, World.setPeer, List.map_set]
  | @drop e rest p payload delay peer stats hq ht hp hd hs =>
    refine .inr ⟨_, peer.stats, stats, arrivals_popped_delivery _ rest .dropped ht,
      World.stats_of_peer hp, ?_, .inr ⟨rfl, hs⟩⟩
    simp only [Machine.world_popped, World.stats, World.setPeer, List.map_set]
  | @tick e rest p peer x hq ht =>
    refine .inl ⟨?_, 0, ?_⟩
    · rw [arrivals_putAll, arrivals_popped_tick _ _ _ ht]
    · simp [World.stats, World.setEngine]
  | @idle e rest p outcome hq ht =>
    exact .inl ⟨arrivals_popped_tick _ _ _ ht, 0, by simp⟩
  | send hp | close hp =>
    refine .inl ⟨by simp, 0, ?_⟩
    rw [List.replicate_zero, List.append_nil]
    refine World.map_peers_setPeer Peer.stats hp ?_
    rfl
  | @addPeers peers hpeers =>
    have hempty : peers.map Peer.stats = List.replicate peers.length .empty := by
      refine List.eq_replicate_iff.2 ⟨List.length_map _, ?_⟩
      intro stats hstats
      obtain ⟨peer, hp, rfl⟩ := List.mem_map.1 hstats
      rw [(hpeers peer hp).1]
      rfl
    refine .inl ⟨rfl, peers.length, ?_⟩
    simp only [Machine.world_withWorld, World.stats, List.map_append, hempty]
  | _ => exact .inl ⟨by simp, 0, by simp [World.stats, World.setEngine, World.link]⟩

theorem Step.length_engines (hstep : Step s a s') :
    s'.world.engines.length = s.world.engines.length := by
  cases hstep <;> simp [World.setEngine, World.setPeer, World.setSource, World.link]

theorem Trace.length_engines (htrace : Trace s as s') :
    s'.world.engines.length = s.world.engines.length := by
  induction htrace with
  | nil => rfl
  | cons hstep _ ih => rw [ih, hstep.length_engines]

theorem Step.mesh_eq (hstep : Step s a s') :
    s'.world.mesh = s.world.mesh ∨ ∃ mesh, a = .setMesh mesh ∧ s'.world.mesh = mesh := by
  cases hstep with
  | setMesh => exact .inr ⟨_, rfl, rfl⟩
  | _ => exact .inl (by simp [World.setEngine, World.setPeer, World.setSource, World.link])

theorem Step.links_subset (hstep : Step s a s') (ha : ∀ i, a ≠ .unlink i) :
    s.world.links ⊆ s'.world.links := by
  cases hstep with
  | unlink => exact absurd rfl (ha _)
  | attach => exact List.subset_append_left _ _
  | tick | update =>
    rw [Machine.world_putAll]
    exact fun l hl => hl
  | _ => exact fun l hl => hl

theorem Step.sent_prefix (hstep : Step s a s') : s.sent <+: s'.sent := by
  rcases hstep.sent_cases with ⟨-, hsent⟩ | ⟨x, -, -, -, hsent, -⟩
  · exact hsent ▸ List.prefix_rfl
  · rw [hsent]
    exact List.prefix_append _ _

theorem Step.dropsNothing (h : s.DropsNothing) (ha : ∀ p ∈ a.added, p.config.onClose = .deliver)
    (hstep : Step s a s') : s'.DropsNothing := by
  unfold DropsNothing
  rw [hstep.origins_eq]
  intro p hp
  rcases List.mem_append.1 hp with hp | hp
  · exact h p hp
  · obtain ⟨q, hq, rfl⟩ := List.mem_map.1 hp
    exact ha q hq

theorem Step.leadsTo_eq (hstep : Step s a s') {i p : Nat} (hp : p < s.world.peers.length) :
    s'.world.leadsTo i p = s.world.leadsTo i p := by
  have horigin : ∀ (w : World ε ρ), w.leadsTo i p = (w.origins[p]?).any fun o => o.engine = i := by
    intro w
    rw [World.leadsTo, World.origins, List.getElem?_map, Option.any_map]
    rfl
  have hlt : p < s.world.origins.length := by rwa [World.length_origins]
  rw [horigin, horigin, hstep.origins_getElem? (List.getElem?_eq_getElem hlt), List.getElem?_eq_getElem hlt]

theorem Trace.leadsTo_eq (htrace : Trace s as s') {i p : Nat} (hp : p < s.world.peers.length) :
    s'.world.leadsTo i p = s.world.leadsTo i p := by
  induction htrace with
  | nil => rfl
  | cons hstep _ ih => rw [ih (Nat.lt_of_lt_of_le hp hstep.length_le), hstep.leadsTo_eq hp]

omit [NormalSource ρ] in
theorem tended_setEngine {w : World ε ρ} {i j : Nat} {x y z : ε} (hi : w.engines[i]? = some x)
    (hj : w.engines[j]? = some y) (hz : j = i → w.Tended i a y z) :
    ∃ z', (w.setEngine j z).engines[i]? = some z' ∧ w.Tended i a x z' := by
  by_cases hij : j = i
  · subst hij
    obtain rfl := Option.some.inj (hj.symm.trans hi)
    exact ⟨z, List.getElem?_set_self (List.getElem?_eq_some_iff.1 hj).1, hz rfl⟩
  · exact ⟨x, (List.getElem?_set_ne hij).trans hi, .alone⟩

/-- Either nothing arrives and an engine is tended at most, or one message arrives, which the engine
receives if it came through one of its peers and was not dropped. -/
theorem Step.engine_cases (hstep : Step s a s') {i : Nat} {x : ε} (hi : s.world.engines[i]? = some x) :
    ∃ y, s'.world.engines[i]? = some y ∧
      (s'.arrivals = s.arrivals ∧ s.world.Tended i a x y ∨
        ∃ (m : Arrival) (peer : Peer), s'.arrivals = s.arrivals ++ [m] ∧
          s.world.peers[m.peer]? = some peer ∧
          y = if peer.drops = false ∧ peer.engine = i then (Consensus.receive x m.payload).1 else x) := by
  cases hstep with
  | @deliver e rest p payload delay peer stats z hq ht hp hd hs hz =>
    have harrivals := arrivals_popped_delivery (s := s)
      ((s.world.setPeer p { peer with stats, inFlight := peer.inFlight - 1 }).setEngine peer.engine
        (Consensus.receive z payload).1) rest .delivered ht
    by_cases hpi : peer.engine = i
    · obtain rfl := Option.some.inj (hi.symm.trans (hpi ▸ hz))
      refine ⟨(Consensus.receive x payload).1, ?_, .inr ⟨_, peer, harrivals, hp, ?_⟩⟩
      · rw [hpi]
        exact List.getElem?_set_self (List.getElem?_eq_some_iff.1 hi).1
      · exact (if_pos ⟨hd, hpi⟩).symm
    · refine ⟨x, (List.getElem?_set_ne hpi).trans hi, .inr ⟨_, peer, harrivals, hp, ?_⟩⟩
      exact (if_neg fun h => hpi h.2).symm
  | @drop e rest p payload delay peer stats hq ht hp hd hs =>
    refine ⟨x, hi, .inr ⟨_, peer, arrivals_popped_delivery _ rest .dropped ht, hp, ?_⟩⟩
    rw [if_neg (by simp [hd])]
  | @tick e rest p peer z hq ht halive hp hopen hz =>
    obtain ⟨y, hy, htended⟩ := tended_setEngine (a := .fire e) hi hz fun _ => .update
    refine ⟨y, ?_, .inl ⟨?_, htended⟩⟩
    · rw [Machine.world_putAll]
      exact hy
    · rw [arrivals_putAll, arrivals_popped_tick _ _ _ ht]
  | idle hq ht => exact ⟨x, hi, .inl ⟨arrivals_popped_tick _ _ _ ht, .alone⟩⟩
  | @update p peer z hp hopen hz =>
    obtain ⟨y, hy, htended⟩ := tended_setEngine (a := .update p) hi hz fun _ => .update
    refine ⟨y, ?_, .inl ⟨by simp, htended⟩⟩
    rw [Machine.world_putAll]
    exact hy
  | @updateEngine j z hz =>
    obtain ⟨y, hy, htended⟩ := tended_setEngine (a := .updateEngine j) hi hz fun _ => .update
    exact ⟨y, hy, .inl ⟨rfl, htended⟩⟩
  | @receive j message z hz =>
    obtain ⟨y, hy, htended⟩ := tended_setEngine (a := .receive j message) hi hz
      fun hji => .receive (by rw [hji])
    exact ⟨y, hy, .inl ⟨rfl, htended⟩⟩
  | @propose j state z z' outgoing hz hz' =>
    obtain ⟨y, hy, htended⟩ := tended_setEngine (a := .propose j state) hi hz
      fun hji => .propose (by rw [hji]) hz'
    exact ⟨y, hy, .inl ⟨rfl, htended⟩⟩
  | @reject j error z z' hz hz' =>
    obtain ⟨y, hy, htended⟩ := tended_setEngine (a := .reject j error) hi hz
      fun hji => .reject (by rw [hji]) hz'
    exact ⟨y, hy, .inl ⟨rfl, htended⟩⟩
  | @attach j peers z z' hpeers hz hz' =>
    obtain ⟨y, hy, htended⟩ := tended_setEngine (a := .attach j peers) hi hz fun _ => .attach hz'
    exact ⟨y, hy, .inl ⟨rfl, htended⟩⟩
  | _ => exact ⟨x, hi, .inl ⟨by simp, .alone⟩⟩

theorem map_sent_of_run {clock : Instant} {engines : List ε} {commands : List Command}
    {answers : List Answer} (hrun : (start clock engines).run commands = .ok (answers, s)) :
    s.sent.map (fun x => (x.peer, x.payload)) =
      collect sends (start clock engines : Simulation ε ρ) commands := by
  obtain ⟨as, htrace, hsends, -⟩ := run_trace (.start clock engines) hrun
  rw [htrace.map_sent, hsends]
  rfl

theorem drawn_of_run {clock : Instant} {engines : List ε} {commands : List Command}
    {answers : List Answer} (hrun : (start clock engines).run commands = .ok (answers, s)) : s.Drawn := by
  obtain ⟨as, htrace, -, -⟩ := run_trace (.start clock engines) hrun
  exact htrace.drawn fun x hx => nomatch hx

theorem sound_of_run {clock : Instant} {engines : List ε} {commands : List Command}
    {answers : List Answer} (hrun : (start clock engines).run commands = .ok (answers, s)) : s.Sound := by
  obtain ⟨as, htrace, -, -⟩ := run_trace (.start clock engines) hrun
  exact htrace.sound (.start clock engines)

end Simulation

end VirtualMesh

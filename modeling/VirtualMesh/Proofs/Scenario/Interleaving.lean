import VirtualMesh.Proofs.Simulation.Kinship
import VirtualMesh.Scenario.Basic

/-!
# A scenario and its scheduler

While a scenario makes its calls, tasks run beside it: each at or after its fire time, and in no order that could
be relied on. Whatever the order is, every message that was sent has been counted by its peer or is under way.
-/

namespace VirtualMesh

variable {ε ρ : Type}

namespace Scenario

/-- What a scenario does with a mesh, a peer at a time. -/
inductive Call where
  | update (peer : Nat)
  | send (peer : Nat) (payload : Bytes)
  | close (peer : Nat)

namespace Call

/-- The peer that is sent through. -/
def target? : Call → Option Nat
  | .send p _ => some p
  | _ => none

def perform [NormalSource ρ] [Consensus ε] (s : Simulation ε ρ) : Call → Except Fault (Simulation ε ρ)
  | .update p => .ok (s.update p).2
  | .send p payload => s.send p payload
  | .close p => .ok (s.withWorld (s.world.close p).2)

end Call

/-- All calls of a scenario, in order. Before the first closing it sleeps. -/
def calls (x : Scenario) (m : Mesh) : List Call :=
  m.peers.map .update ++ (x.traffic m).map (fun y => .send y.1 y.2) ++ m.peers.map .close

/-- The scenario makes its next call, or time passes, or any task runs that is due. -/
inductive Move [NormalSource ρ] [Consensus ε] : List Call × Simulation ε ρ → List Call × Simulation ε ρ → Prop
  | call {c : Call} {cs : List Call} {s s' : Simulation ε ρ} (h : c.perform s = .ok s') : Move (c :: cs, s) (cs, s')
  | wait {cs : List Call} {s : Simulation ε ρ} (t : Instant) : Move (cs, s) (cs, s.moveTo t)
  | task {cs : List Call} {s s' : Simulation ε ρ} {e : Entry Task} {before after : List (Entry Task)}
      (hq : s.queue = before ++ e :: after) (hdue : e.fireAt ≤ s.clock)
      (h : s.fire World.handler e (before ++ after) = .ok s') : Move (cs, s) (cs, s')

abbrev Reaches [NormalSource ρ] [Consensus ε] : List Call × Simulation ε ρ → List Call × Simulation ε ρ → Prop :=
  Relation.ReflTransGen Move

end Scenario

/-! ## Deliveries of one size -/

namespace PeerStats

/-- Statistics of deliveries of one size, with no delay below zero, and of no drop. -/
def Even (size : Nat) (s : PeerStats) : Prop :=
  ∃ xs, s.Describes xs 0 ∧ ∀ x ∈ xs, x.2 = size ∧ 0 ≤ x.1.nanos

variable {size : Nat} {s t : PeerStats}

theorem even_empty (size : Nat) : Even size .empty := ⟨[], describes_empty, fun _ hx => nomatch hx⟩

theorem Even.bytes (h : s.Even size) : s.bytes.toNat = s.messages.toNat * size := by
  obtain ⟨xs, hdescribes, hxs⟩ := h
  rw [hdescribes.bytes, hdescribes.messages, List.map_congr_left fun x hx => (hxs x hx).1, List.map_const',
    List.sum_replicate, smul_eq_mul]

theorem Even.dropped (h : s.Even size) : s.dropped = 0 := by
  obtain ⟨xs, hdescribes, -⟩ := h
  exact UInt64.toNat.inj hdescribes.dropped

theorem Even.recordDelivery (h : s.Even size) {d : Delay} (hd : 0 ≤ d.nanos) (ht : s.recordDelivery d size = .ok t) :
    t.Even size ∧ t.messages.toNat = s.messages.toNat + 1 := by
  obtain ⟨xs, hdescribes, hxs⟩ := h
  refine ⟨⟨xs ++ [(d, size)], hdescribes.recordDelivery ht, ?_⟩, (recordDelivery_eq_ok.1 ht).1⟩
  exact List.forall_mem_append.2 ⟨hxs, List.forall_mem_singleton.2 ⟨rfl, hd⟩⟩

end PeerStats

/-! ## What the calls and tasks change -/

namespace World

variable {w : World ε ρ} {p : Nat} {t : Instant}

/-- An update puts nothing but the next tick into the queue. -/
theorem submissions_update [Consensus ε] {y : Submission Task} (hy : y ∈ (w.update p t).submissions) :
    y.task = .tick p ∧ ∃ peer, w.peers[p]? = some peer ∧ t.nanos + peer.config.tick.nanos = y.fireAt.nanos := by
  cases hp : w.peers[p]? with
  | none =>
    rw [update_eq_absent hp] at hy
    cases hy
  | some peer =>
    cases hclosed : peer.isClosed with
    | true =>
      rw [update_eq_closed hp hclosed] at hy
      cases hy
    | false =>
      rw [update_eq_modify hp hclosed] at hy
      obtain ⟨hat, htask⟩ := Ticker.fireAt_of_mem_arm hy
      exact ⟨htask, peer, rfl, hat⟩

theorem sources_update [Consensus ε] (w : World ε ρ) (p : Nat) (t : Instant) :
    (w.update p t).world.sources = w.sources := by
  cases hp : w.peers[p]? with
  | none => rw [update_eq_absent hp]
  | some peer =>
    cases hclosed : peer.isClosed with
    | true => rw [update_eq_closed hp hclosed]
    | false => rw [update_eq_modify hp hclosed]; rfl

theorem handler_of_tick [Consensus ε] {r : Reaction Task Outcome (World ε ρ)} (h : handler (.tick p) t w = .ok r) :
    r.world.peers = w.peers ∧ r.world.sources = w.sources ∧ ∀ y ∈ r.submissions, y.task = .tick p ∧
      ∃ peer, w.peers[p]? = some peer ∧ t.nanos + peer.config.tick.nanos = y.fireAt.nanos := by
  rw [handler] at h
  split at h
  · cases h
    exact ⟨peers_update w p t, sources_update w p t, fun y hy => submissions_update hy⟩
  · cases h
    exact ⟨rfl, rfl, fun y hy => absurd hy List.not_mem_nil⟩

/-- A message that is not dropped is counted. -/
theorem handler_of_delivery [Consensus ε] {r : Reaction Task Outcome (World ε ρ)} {peer : Peer} {payload : Bytes}
    {delay : Delay} (hp : w.peers[p]? = some peer) (hdrops : peer.drops = false)
    (h : handler (.delivery p payload delay) t w = .ok r) : ∃ stats,
      peer.stats.recordDelivery delay payload.length = .ok stats ∧ r.submissions = [] ∧ r.world.sources = w.sources ∧
        r.world.peers = w.peers.set p { peer with stats, inFlight := peer.inFlight - 1 } := by
  rw [handler, deliver_eq_map hp] at h
  cases harrive : peer.arrive delay payload.length with
  | error f => rw [harrive] at h; cases h
  | ok new =>
    obtain ⟨stats, ⟨hd, -⟩ | ⟨-, hstats⟩, rfl⟩ := Peer.arrive_eq_ok.1 harrive
    · rw [hdrops] at hd
      cases hd
    · rw [harrive, hdrops] at h
      cases h
      exact ⟨stats, hstats, rfl, rfl, rfl⟩

theorem exists_handler_tick [Consensus ε] (w : World ε ρ) (p : Nat) (t : Instant) : ∃ r, handler (.tick p) t w = .ok r := by
  rw [handler]
  split <;> exact ⟨_, rfl⟩

theorem exists_handler_delivery [Consensus ε] {peer : Peer} {payload : Bytes} {delay : Delay} {stats : PeerStats}
    (hp : w.peers[p]? = some peer) (hdrops : peer.drops = false)
    (hstats : peer.stats.recordDelivery delay payload.length = .ok stats) (t : Instant) :
    ∃ r, handler (.delivery p payload delay) t w = .ok r := by
  rw [handler, deliver_eq_map hp, Peer.arrive_eq_ok.2 ⟨stats, .inr ⟨hdrops, hstats⟩, rfl⟩]
  exact ⟨_, rfl⟩

end World

namespace Simulation

variable {s : Simulation ε ρ}

/-- A task may run from any place of the queue. -/
theorem underway_of_split {e : Entry Task} {before after : List (Entry Task)} (hq : s.queue = before ++ e :: after) :
    s.underway.Perm ((Message.of? e).toList ++ (before ++ after).filterMap Message.of?) := by
  have hmiddle : ((before ++ e :: after).filterMap Message.of?).Perm ((e :: (before ++ after)).filterMap Message.of?) :=
    List.perm_middle.filterMap _
  rw [underway, hq]
  cases hm : Message.of? e with
  | none => rwa [List.filterMap_cons_none hm] at hmiddle
  | some m => rwa [List.filterMap_cons_some hm] at hmiddle

theorem underway_of_delivery_split {e : Entry Task} {before after : List (Entry Task)}
    (hq : s.queue = before ++ e :: after) {p : Nat} {payload : Bytes} {delay : Delay}
    (ht : e.task = .delivery p payload delay) : s.underway.Perm
      (⟨e.number, e.fireAt, p, payload, delay⟩ :: (before ++ after).filterMap Message.of?) := by
  have hperm := underway_of_split hq
  rwa [Message.of?, ht] at hperm

end Simulation

/-! ## What holds while a scenario runs -/

/-- A shorter delay passes sooner. -/
theorem Delay.exists_add? {t : Instant} (h : (t.add? Delay.top.clamped).isSome = true) (d : Delay) :
    ∃ u, t.add? d.clamped = some u := by
  obtain ⟨u, hu⟩ := Option.isSome_iff_exists.1 h
  have hnanos := Instant.nanos_of_add? hu
  have hge := t.ge
  have hlt := u.lt
  have hd := d.lt
  simp only [clamped, top] at hnanos
  refine ⟨_, dif_pos (?_ : -2 ^ 63 * 10 ^ 9 ≤ t.nanos + (d.nanos.toNat : Int) ∧ t.nanos + (d.nanos.toNat : Int) < _)⟩
  omega

namespace Scenario

/-- Every peer is given as many messages as there are rounds: they have been counted, are under way, or are still to
be sent. -/
structure OnTrack (x : Scenario) (cs : List Call) (s : Simulation ε ρ) : Prop where
  size : s.world.peers.length = x.engineCount * (x.engineCount - 1)
  origins : ∀ o ∈ s.world.origins, o.config = x.config ∧ o.source < s.world.sources.length
  underway : ∀ m ∈ s.underway, m.peer < s.world.peers.length ∧ m.payload.length = x.payloadSize ∧ 0 ≤ m.delay.nanos
  unsent : ∀ p payload, Call.send p payload ∈ cs → p < s.world.peers.length ∧ payload.length = x.payloadSize
  counted : ∀ (p : Nat) (stats : PeerStats), s.world.stats[p]? = some stats → stats.Even x.payloadSize ∧
    stats.messages.toNat + s.underway.countP (fun m => m.peer = p) + cs.countP (fun c => c.target? = some p) = x.rounds
  sent : s.sent.length + cs.countP (fun c => c.target?.isSome) = x.engineCount * (x.engineCount - 1) * x.rounds

namespace OnTrack

variable {x : Scenario} {c : Call} {cs : List Call} {s s' : Simulation ε ρ} {e : Entry Task}
  {before after : List (Entry Task)} {p : Nat} {payload : Bytes}

/-- A change that neither sends nor counts a message. -/
theorem quiet (h : OnTrack x cs s) (horigins : s'.world.origins = s.world.origins)
    (hsources : s'.world.sources = s.world.sources) (hstats : s'.world.stats = s.world.stats)
    (hunderway : s'.underway.Perm s.underway) (hsent : s'.sent = s.sent) : OnTrack x cs s' := by
  have hlength : s'.world.peers.length = s.world.peers.length := by
    rw [← World.length_origins, horigins, World.length_origins]
  constructor
  case size => rw [hlength]; exact h.size
  case origins => rw [horigins, hsources]; exact h.origins
  case underway => rw [hlength]; exact fun m hm => h.underway m (hunderway.mem_iff.1 hm)
  case unsent => rw [hlength]; exact h.unsent
  case counted => rw [hstats]; simp only [hunderway.countP_eq]; exact h.counted
  case sent => rw [hsent]; exact h.sent

/-- A call that sends nothing has been made. -/
theorem skip (h : OnTrack x (c :: cs) s) (hc : c.target? = none) : OnTrack x cs s := by
  obtain ⟨hsize, horigins, hunderway, hunsent, hcounted, hsent⟩ := h
  refine ⟨hsize, horigins, hunderway, fun p payload hmem => hunsent p payload (List.mem_cons_of_mem c hmem), ?_, ?_⟩
  · intro p stats hp
    have hcount := hcounted p stats hp
    rwa [List.countP_cons_of_neg (by simp [hc])] at hcount
  · rwa [List.countP_cons_of_neg (by simp [hc])] at hsent

theorem moveTo (h : OnTrack x cs s) (t : Instant) : OnTrack x cs (s.moveTo t) := h.quiet rfl rfl rfl (.refl _) rfl

theorem config_eq (h : OnTrack x cs s) {p : Nat} {peer : Peer} (hp : s.world.peers[p]? = some peer) :
    peer.config = x.config ∧ peer.source < s.world.sources.length :=
  h.origins peer.origin (List.mem_map_of_mem (List.mem_of_getElem? hp))

theorem drops_eq_false (h : OnTrack x cs s) {p : Nat} {peer : Peer} (hp : s.world.peers[p]? = some peer) :
    peer.drops = false := by
  rw [Peer.drops, (h.config_eq hp).1]
  rfl

theorem close (h : OnTrack x cs s) (p : Nat) : OnTrack x cs (s.withWorld (s.world.close p).2) := by
  cases hp : s.world.peers[p]? with
  | none =>
    have hsame : (s.world.close p).2 = s.world := by simp only [World.close, hp]
    rw [hsame]
    exact h
  | some peer =>
    rw [World.close_eq hp]
    exact h.quiet (World.origins_setPeer hp rfl) rfl (World.map_peers_setPeer Peer.stats hp rfl) (.refl _) rfl

/-- A message that was under way is counted. -/
theorem arrive (h : OnTrack x cs s) {m : Message} {l : List Message} (hperm : s.underway.Perm (m :: l)) {peer : Peer}
    {stats : PeerStats} {n : Nat} (hp : s.world.peers[m.peer]? = some peer)
    (hstats : peer.stats.recordDelivery m.delay m.payload.length = .ok stats)
    (hpeers : s'.world.peers = s.world.peers.set m.peer { peer with stats, inFlight := n })
    (hsources : s'.world.sources = s.world.sources) (hunderway : s'.underway = l) (hsent : s'.sent = s.sent) :
    OnTrack x cs s' := by
  obtain ⟨-, hsize, hdelay⟩ := h.underway m (hperm.mem_iff.2 List.mem_cons_self)
  have horigins : s'.world.origins = s.world.origins := by
    rw [World.origins, hpeers]
    exact World.origins_setPeer hp rfl
  have hlength : s'.world.peers.length = s.world.peers.length := by rw [hpeers, List.length_set]
  rw [hsize] at hstats
  constructor
  case size => rw [hlength]; exact h.size
  case origins => rw [horigins, hsources]; exact h.origins
  case underway =>
    rw [hlength, hunderway]
    exact fun y hy => h.underway y (hperm.mem_iff.2 (List.mem_cons_of_mem m hy))
  case unsent => rw [hlength]; exact h.unsent
  case counted =>
    intro q new hnew
    rw [World.stats, hpeers, List.map_set] at hnew
    rw [hunderway]
    by_cases hq : m.peer = q
    · subst hq
      have hlt := (List.getElem?_eq_some_iff.1 hp).1
      rw [List.getElem?_set_self (by simpa using hlt)] at hnew
      obtain rfl := Option.some.inj hnew
      obtain ⟨heven, hcount⟩ := h.counted m.peer peer.stats (World.stats_of_peer hp)
      obtain ⟨heven', hmessages⟩ := heven.recordDelivery hdelay hstats
      rw [hperm.countP_eq, List.countP_cons_of_pos (by simp)] at hcount
      refine ⟨heven', ?_⟩
      show stats.messages.toNat + _ + _ = _
      omega
    · rw [List.getElem?_set_ne hq] at hnew
      obtain ⟨heven, hcount⟩ := h.counted q new hnew
      rw [hperm.countP_eq, List.countP_cons_of_neg (by simpa using hq)] at hcount
      exact ⟨heven, hcount⟩
  case sent => rw [hsent]; exact h.sent

/-- A message that was to be sent is under way. -/
theorem depart (h : OnTrack x (.send p payload :: cs) s) {m : Message} (hm : m.peer = p) (hpayload : m.payload = payload)
    (hdelay : 0 ≤ m.delay.nanos) (horigins : s'.world.origins = s.world.origins)
    (hsources : s'.world.sources.length = s.world.sources.length) (hstats : s'.world.stats = s.world.stats)
    (hunderway : s'.underway.Perm (m :: s.underway)) (hsent : s'.sent.length = s.sent.length + 1) : OnTrack x cs s' := by
  subst hm hpayload
  obtain ⟨hp, hsize⟩ := h.unsent m.peer m.payload List.mem_cons_self
  have hlength : s'.world.peers.length = s.world.peers.length := by
    rw [← World.length_origins, horigins, World.length_origins]
  constructor
  case size => rw [hlength]; exact h.size
  case origins => rw [horigins, hsources]; exact h.origins
  case underway =>
    intro y hy
    rw [hlength]
    rcases List.mem_cons.1 (hunderway.mem_iff.1 hy) with rfl | hy
    · exact ⟨hp, hsize, hdelay⟩
    · exact h.underway y hy
  case unsent => rw [hlength]; exact fun q bytes hmem => h.unsent q bytes (List.mem_cons_of_mem _ hmem)
  case counted =>
    intro q stats hq
    rw [hstats] at hq
    obtain ⟨heven, hcount⟩ := h.counted q stats hq
    refine ⟨heven, ?_⟩
    have htarget : (Call.send m.peer m.payload).target? = some m.peer := rfl
    simp only [List.countP_cons, htarget, Option.some.injEq] at hcount
    simp only [hunderway.countP_eq, List.countP_cons]
    omega
  case sent =>
    have hcount := h.sent
    rw [List.countP_cons_of_pos rfl] at hcount
    rw [hsent]
    omega

/-- The peer of a message under way has counted fewer messages than it is given. -/
theorem exists_receiver (h : OnTrack x cs s) {m : Message} (hm : m ∈ s.underway) : ∃ peer,
    s.world.peers[m.peer]? = some peer ∧ peer.stats.Even x.payloadSize ∧ peer.stats.messages.toNat < x.rounds := by
  have hpeer := List.getElem?_eq_getElem (h.underway m hm).1
  obtain ⟨heven, hcount⟩ := h.counted m.peer _ (World.stats_of_peer hpeer)
  have hpos : 0 < s.underway.countP fun y => y.peer = m.peer := List.countP_pos_iff.2 ⟨m, hm, by simp⟩
  exact ⟨_, hpeer, heven, by omega⟩

/-- What a send needs is there. -/
theorem exists_sender (h : OnTrack x (.send p payload :: cs) s) : ∃ peer source, s.world.peers[p]? = some peer ∧
    s.world.sources[peer.source]? = some source ∧ peer.config = x.config := by
  obtain ⟨hp, -⟩ := h.unsent p payload List.mem_cons_self
  have hpeer := List.getElem?_eq_getElem hp
  obtain ⟨hconfig, hsource⟩ := h.config_eq hpeer
  exact ⟨_, _, hpeer, List.getElem?_eq_getElem hsource, hconfig⟩

variable [Consensus ε]

theorem update (h : OnTrack x cs s) (p : Nat) : OnTrack x cs (s.update p).2 := by
  have hpeers := World.peers_update s.world p s.clock
  have hticks : ∀ y ∈ (s.world.update p s.clock).submissions, ∃ q, y.task = .tick q := fun y hy =>
    ⟨p, (World.submissions_update hy).1⟩
  have hworld : (s.update p).2.world = (s.world.update p s.clock).world := Machine.world_putAll ..
  refine h.quiet ?_ ?_ ?_ (Simulation.underway_putAll_of_ticks hticks) (Simulation.sent_putAll_of_ticks hticks)
  · rw [hworld, World.origins, hpeers, World.origins]
  · rw [hworld, World.sources_update]
  · rw [hworld, World.stats, hpeers, World.stats]

theorem fire (h : OnTrack x cs s) (hq : s.queue = before ++ e :: after)
    (hfire : s.fire World.handler e (before ++ after) = .ok s') : OnTrack x cs s' := by
  obtain ⟨r, hr, rfl⟩ := Machine.fire_eq_ok.1 hfire
  cases ht : e.task with
  | tick p =>
    rw [ht] at hr
    have hperm := Simulation.underway_of_split hq
    rw [Message.of?, ht] at hperm
    obtain ⟨hpeers, hsources, hsubmissions⟩ := World.handler_of_tick hr
    have hticks : ∀ y ∈ r.submissions, ∃ q, y.task = .tick q := fun y hy => ⟨p, (hsubmissions y hy).1⟩
    refine h.quiet ?_ ?_ ?_ ((Simulation.underway_putAll_of_ticks hticks).trans hperm.symm)
      ((Simulation.sent_putAll_of_ticks hticks).trans (Simulation.sent_popped ..))
    · rw [Machine.world_putAll, Machine.world_popped, World.origins, hpeers, World.origins]
    · rw [Machine.world_putAll, Machine.world_popped, hsources]
    · rw [Machine.world_putAll, Machine.world_popped, World.stats, hpeers, World.stats]
  | delivery p payload delay =>
    rw [ht] at hr
    have hperm := Simulation.underway_of_delivery_split hq ht
    obtain ⟨peer, hpeer, -, -⟩ := h.exists_receiver (hperm.mem_iff.2 List.mem_cons_self)
    obtain ⟨stats, hstats, hsubmissions, hsources, hpeers⟩ := World.handler_of_delivery hpeer (h.drops_eq_false hpeer) hr
    rw [hsubmissions, Machine.putAll_nil]
    exact h.arrive hperm hpeer hstats hpeers hsources rfl (Simulation.sent_popped ..)

variable [NormalSource ρ]

omit [Consensus ε] in
theorem send (h : OnTrack x (.send p payload :: cs) s) (hsend : s.send p payload = .ok s') : OnTrack x cs s' := by
  obtain ⟨peer, source, hpeer, hsource, hconfig⟩ := h.exists_sender
  rw [Simulation.send_eq hpeer hsource] at hsend
  have hdelay : 0 ≤ (peer.recorded (peer.latency.sample source).1).nanos := by
    rw [Peer.recorded, hconfig]
    exact Int.le_max_right _ _
  split at hsend
  · cases hsend
  · rename_i t _
    cases hsend
    have hpeer' : (s.world.setSource peer.source (peer.latency.sample source).2).peers[p]? = some peer := hpeer
    refine h.depart (m := ⟨s.submissions, t, p, payload, _⟩) rfl rfl hdelay (World.origins_setPeer hpeer' rfl)
      List.length_set (World.map_peers_setPeer Peer.stats hpeer' rfl) (Simulation.underway_put ..) ?_
    rw [Simulation.sent_put]
    exact List.length_append

theorem call (h : OnTrack x (c :: cs) s) (hc : c.perform s = .ok s') : OnTrack x cs s' := by
  cases c with
  | update p =>
    cases hc
    exact (h.skip rfl).update p
  | send p payload => exact h.send hc
  | close p =>
    cases hc
    exact (h.skip rfl).close p

theorem move {a b : List Call × Simulation ε ρ} (h : OnTrack x a.1 a.2) (hmove : Move a b) : OnTrack x b.1 b.2 := by
  cases hmove with
  | call hc => exact h.call hc
  | wait t => exact h.moveTo t
  | task hq _ hfire => exact h.fire hq hfire

theorem reaches {a b : List Call × Simulation ε ρ} (h : OnTrack x a.1 a.2) (hreaches : Reaches a b) :
    OnTrack x b.1 b.2 := by
  induction hreaches with
  | refl => exact h
  | tail _ hmove ih => exact ih.move hmove

/-! ### Nothing stops a scenario -/

/-- A call is made if there is time for the longest delay. -/
theorem exists_perform (h : OnTrack x (c :: cs) s) (hclock : (s.clock.add? Delay.top.clamped).isSome = true) :
    ∃ s', c.perform s = .ok s' ∧ s'.clock = s.clock := by
  cases c with
  | update p => exact ⟨_, rfl, Machine.clock_putAll ..⟩
  | close p => exact ⟨_, rfl, rfl⟩
  | send p payload =>
    obtain ⟨peer, source, hpeer, hsource, -⟩ := h.exists_sender
    obtain ⟨t, ht⟩ := Delay.exists_add? hclock (peer.recorded (peer.latency.sample source).1)
    have hsend := Simulation.send_eq hpeer hsource payload
    rw [ht] at hsend
    exact ⟨_, hsend, rfl⟩

omit [NormalSource ρ] in
/-- Any message under way can arrive, if 64 bits hold what is sent to one peer. -/
theorem exists_fire (h : OnTrack x cs s) (hmessages : x.rounds < 2 ^ 64) (hbytes : x.rounds * x.payloadSize < 2 ^ 64)
    (hq : s.queue = before ++ e :: after) : ∃ s', s.fire World.handler e (before ++ after) = .ok s' := by
  suffices hhandler : ∃ r, World.handler e.task (max s.clock e.fireAt) s.world = .ok r by
    obtain ⟨r, hr⟩ := hhandler
    exact ⟨_, Machine.fire_eq_ok.2 ⟨r, hr, rfl⟩⟩
  cases ht : e.task with
  | tick p => exact World.exists_handler_tick ..
  | delivery p payload delay =>
    have hm := (Simulation.underway_of_delivery_split hq ht).mem_iff.2 List.mem_cons_self
    obtain ⟨peer, hpeer, heven, hlt⟩ := h.exists_receiver hm
    have hsize : payload.length = x.payloadSize := (h.underway _ hm).2.1
    have hle := Nat.mul_le_mul_right x.payloadSize hlt
    rcases peer.stats.recordDelivery_cases delay payload.length with ⟨-, stats, hstats⟩ | ⟨hover, -⟩
    · exact World.exists_handler_delivery hpeer (h.drops_eq_false hpeer) hstats ..
    · refine absurd ⟨by omega, ?_⟩ hover
      rw [heven.bytes, hsize, ← Nat.succ_mul]
      omega

end OnTrack

end Scenario

end VirtualMesh

import VirtualMesh.Proofs.Simulation.Closing
import VirtualMesh.Proofs.Simulation.Convergence
import VirtualMesh.Proofs.Simulation.Statistics

/-!
# Draws from a shared source

Nothing but a send draws from a random source, and each send draws once. Peers with one source and one latency
therefore hand out the delays that the latency would draw from that source alone, in the order in which messages are
sent through any of them, whatever happens in between.
-/

namespace VirtualMesh

namespace Latency

variable {ρ : Type} [NormalSource ρ] (l : Latency)

/-- The source that is left when some delays have been drawn from it. -/
def after (source : ρ) : Nat → ρ
  | 0 => source
  | k + 1 => after (l.sample source).2 k

/-- The delay that is drawn after `k` others, with nothing else drawn from the source. -/
def nth (source : ρ) (k : Nat) : Delay := (l.sample (l.after source k)).1

end Latency

variable {ε ρ : Type}

def World.policy? (w : World ε ρ) (peer : Nat) : Option NegativeDelay := (w.peers[peer]?).map fun p => p.config.negative

def World.drawsFrom (w : World ε ρ) (source peer : Nat) : Bool :=
  (w.peers[peer]?).any fun p => p.source = source

theorem World.drawsFrom_of_origin {w : World ε ρ} {p : Nat} {origin : Peer} (ho : w.origins[p]? = some origin)
    (source : Nat) : w.drawsFrom source p = decide (origin.source = source) := by
  obtain ⟨peer, hp, rfl⟩ := exists_of_origin ho
  rw [drawsFrom, hp]
  rfl

theorem Peer.recorded_congr {p q : Peer} (h : p.config.negative = q.config.negative) (sampled : Delay) :
    p.recorded sampled = q.recorded sampled := by
  rw [recorded, recorded, h]

namespace Simulation

def sentSince (s s₀ : Simulation ε ρ) : List Sending := s.sent.drop s₀.sent.length

/-- The messages sent since `s₀` through the peers that draw from a source, in order. -/
def drawnSince (s s₀ : Simulation ε ρ) (source : Nat) : List Sending :=
  (s.sentSince s₀).filter fun x => s.world.drawsFrom source x.peer

section
variable {s s₀ s₁ : Simulation ε ρ}

theorem sentSince_of_sent_eq (h : s₁.sent = s₀.sent) : s.sentSince s₀ = s.sentSince s₁ := by
  rw [sentSince, sentSince, h]

theorem sentSince_of_sent_append {x : Sending} (h : s₁.sent = s₀.sent ++ [x]) (hbefore : s₁.sent <+: s.sent) :
    s.sentSince s₀ = x :: s.sentSince s₁ := by
  obtain ⟨rest, hrest⟩ := hbefore
  rw [sentSince, sentSince, ← hrest, List.drop_left, h, List.append_assoc, List.drop_left]
  rfl

theorem drawnSince_of_sent_append {x : Sending} {origin : Peer} (h : s₁.sent = s₀.sent ++ [x])
    (hbefore : s₁.sent <+: s.sent) (ho : s.world.origins[x.peer]? = some origin) (n : Nat) :
    s.drawnSince s₀ n = if origin.source = n then x :: s.drawnSince s₁ n else s.drawnSince s₁ n := by
  rw [drawnSince, sentSince_of_sent_append h hbefore, List.filter_cons, World.drawsFrom_of_origin ho]
  simp only [decide_eq_true_eq]
  rfl

theorem sent_eq_append_sentSince (hbefore : s₀.sent <+: s.sent) : s.sent = s₀.sent ++ s.sentSince s₀ := by
  obtain ⟨rest, hrest⟩ := hbefore
  rw [sentSince, ← hrest, List.drop_left]

end

variable [NormalSource ρ] [Consensus ε] {s s' : Simulation ε ρ} {a : Action} {as : List Action}

/-- Either nothing is sent, and sources are added at most, or one message is sent, whose delay is drawn from the source
of its peer and from no other. -/
theorem Step.draw_cases (hstep : Step s a s') : s'.sent = s.sent ∧ s.world.sources <+: s'.world.sources ∨
    ∃ (x : Sending) (peer : Peer) (source : ρ), s'.sent = s.sent ++ [x] ∧ s.world.peers[x.peer]? = some peer ∧
      s.world.sources[peer.source]? = some source ∧ x.fireAt.nanos = x.due ∧
      x.delay = peer.recorded (peer.latency.sample source).1 ∧
      s'.world.sources = s.world.sources.set peer.source (peer.latency.sample source).2 := by
  cases hstep with
  | @send p payload peer source fireAt hp hsource hat =>
    refine .inr ⟨⟨⟨s.submissions, fireAt, p, payload, peer.recorded (peer.latency.sample source).1⟩, s.clock⟩,
      peer, source, ?_, hp, hsource, Instant.nanos_of_add? hat, rfl, rfl⟩
    rw [sent_put, sent_withWorld]
    rfl
  | addSource => exact .inl ⟨rfl, List.prefix_append _ _⟩
  | tick | update =>
    refine .inl ⟨by simp, ?_⟩
    rw [Machine.world_putAll]
    exact List.prefix_rfl
  | _ => exact .inl ⟨by simp, List.prefix_rfl⟩

theorem Trace.sent_prefix (htrace : Trace s as s') : s.sent <+: s'.sent := by
  induction htrace with
  | nil => exact List.prefix_rfl
  | cons hstep _ ih => exact hstep.sent_prefix.trans ih

/-- What a trace draws from a source whose peers have one latency. -/
theorem Trace.draws (htrace : Trace s as s') {n : Nat} {r : ρ} {l : Latency}
    (hr : s.world.sources[n]? = some r) (hl : ∀ o ∈ s'.world.origins, o.source = n → o.latency = l) :
    s'.world.sources[n]? = some (l.after r (s'.drawnSince s n).length) ∧
    ∀ k (x : Sending), (s'.drawnSince s n)[k]? = some x → x.fireAt.nanos = x.due ∧
      ∃ o, s'.world.origins[x.peer]? = some o ∧ x.delay = o.recorded (l.nth r k) := by
  induction htrace generalizing r with
  | @nil s =>
    have hnone : s.drawnSince s n = [] := by rw [drawnSince, sentSince, List.drop_length, List.filter_nil]
    rw [hnone]
    refine ⟨hr, fun k x hx => ?_⟩
    rw [List.getElem?_nil] at hx
    cases hx
  | @cons s s₁ s₂ a as hstep htrace ih =>
    rcases hstep.draw_cases with ⟨hsent, hsources⟩ | ⟨x, peer, source, hsent, hp, hsource, hdue, hdelay, hset⟩
    · obtain ⟨added, hadded⟩ := hsources
      have hr₁ : s₁.world.sources[n]? = some r := by
        rw [← hadded, List.getElem?_append_left (List.getElem?_eq_some_iff.1 hr).1, hr]
      rw [drawnSince, sentSince_of_sent_eq hsent]
      exact ih hr₁ hl
    · have ho : s₂.world.origins[x.peer]? = some peer.origin :=
        htrace.origins_getElem? (hstep.origins_getElem? (World.origin_of_peer hp))
      rw [drawnSince_of_sent_append hsent htrace.sent_prefix ho]
      by_cases hn : peer.source = n
      · subst hn
        obtain rfl : source = r := Option.some.inj (hsource.symm.trans hr)
        have hlatency : peer.latency = l := hl peer.origin (List.mem_of_getElem? ho) rfl
        have hr₁ : s₁.world.sources[peer.source]? = some (l.sample source).2 := by
          rw [hset, hlatency, List.getElem?_set_self (List.getElem?_eq_some_iff.1 hsource).1]
        obtain ⟨hrest, hdraws⟩ := ih hr₁ hl
        rw [if_pos (show peer.origin.source = peer.source from rfl)]
        refine ⟨hrest, fun k y hy => ?_⟩
        cases k with
        | zero =>
          obtain rfl : x = y := Option.some.inj hy
          exact ⟨hdue, peer.origin, ho, by rw [hdelay, hlatency]; rfl⟩
        | succ k => exact hdraws k y hy
      · -- a send through this peer moves another source on
        have hr₁ : s₁.world.sources[n]? = some r := by rw [hset, List.getElem?_set_ne hn, hr]
        rw [if_neg (show ¬ peer.origin.source = n from hn)]
        exact ih hr₁ hl

section
variable {clock : Instant} {engines : List ε} {setup commands : List Command} {answers₀ answers : List Answer}
  {s₀ : Simulation ε ρ} {n : Nat} {r : ρ} {l : Latency}

theorem draws_of_run (hsetup : (start clock engines).run setup = .ok (answers₀, s₀))
    (hrun : s₀.run commands = .ok (answers, s)) (hsource : s₀.world.sources[n]? = some r)
    (hshared : ∀ peer ∈ s.world.peers, peer.source = n → peer.latency = l) {k : Nat} {x : Sending}
    (hx : (s.drawnSince s₀ n)[k]? = some x) : ∃ peer, s.world.peers[x.peer]? = some peer ∧
      x.delay = peer.recorded (l.nth r k) ∧ x.fireAt.nanos = x.clock.nanos + x.delay.clamped.nanos := by
  obtain ⟨as, htrace, -, -⟩ := run_trace (sound_of_run hsetup) hrun
  have horigins : ∀ o ∈ s.world.origins, o.source = n → o.latency = l := by
    intro o ho hn
    obtain ⟨peer, hp, rfl⟩ := List.mem_map.1 ho
    exact hshared peer hp hn
  obtain ⟨hdue, o, ho, hdelay⟩ := (htrace.draws hsource horigins).2 k x hx
  obtain ⟨peer, hp, rfl⟩ := World.exists_of_origin ho
  exact ⟨peer, hp, hdelay, hdue⟩

/-- While all peers that draw from a source have one latency, the messages sent through them get the delays that this
latency draws from the source alone, in the order of the sends; a peer changes such a delay at most as its configuration
says, and it is the delay after which the message is due and the one that is recorded. What is done otherwise makes no
difference, so two runs give the same delays to the sends in the same places. -/
theorem delays_by_order (hsetup : (start clock engines).run setup = .ok (answers₀, s₀))
    (hrun : s₀.run commands = .ok (answers, s)) (hsource : s₀.world.sources[n]? = some r)
    (hshared : ∀ peer ∈ s.world.peers, peer.source = n → peer.latency = l) :
    (s.sentSince s₀).map (fun x => (x.peer, x.payload)) = s₀.collect sends commands ∧
    (∀ k (x : Sending), (s.drawnSince s₀ n)[k]? = some x → ∃ peer : Peer, s.world.peers[x.peer]? = some peer ∧
      x.delay = peer.recorded (l.nth r k) ∧ x.fireAt.nanos = x.clock.nanos + x.delay.clamped.nanos) ∧
    (∀ p (peer : Peer), s.world.peers[p]? = some peer →
      (∀ y ∈ s.arrivalsAt p, y.outcome = .delivered ∨ y.outcome = .dropped) ∧
      peer.stats.Describes ((s.deliveredAt p).map fun y => (y.delay, y.payload.length)) (s.droppedAt p) ∧
      ∀ y ∈ s.arrivalsAt p, ∃ x ∈ s.sent, x.toMessage = y.toMessage) ∧
    ∀ (ε' : Type) [Consensus ε'] (clock' : Instant) (engines' : List ε') (setup' commands' : List Command)
      (answers₀' answers' : List Answer) (t₀ t : Simulation ε' ρ) (m : Nat),
      (start clock' engines').run setup' = .ok (answers₀', t₀) → t₀.run commands' = .ok (answers', t) →
      t₀.world.sources[m]? = some r → (∀ peer ∈ t.world.peers, peer.source = m → peer.latency = l) →
      ∀ (k : Nat) (x y : Sending), (s.drawnSince s₀ n)[k]? = some x → (t.drawnSince t₀ m)[k]? = some y →
        s.world.policy? x.peer = t.world.policy? y.peer → x.delay = y.delay := by
  obtain ⟨as, htrace, hsends, -⟩ := run_trace (sound_of_run hsetup) hrun
  have hwhole := run_append hsetup hrun
  have hcounted := counted_of_run hwhole
  refine ⟨?_, fun k x hx => draws_of_run hsetup hrun hsource hshared hx,
    fun p peer hp => ⟨hcounted.outcome_arrivalsAt, ?_, fun y hy => ?_⟩, ?_⟩
  · have hmap := htrace.map_sent
    rw [hsends, sent_eq_append_sentSince htrace.sent_prefix, List.map_append] at hmap
    exact List.append_cancel_left hmap
  · exact hcounted.stats p peer.stats (World.stats_of_peer hp)
  · exact exists_sent_of_arrival (sound_of_run hwhole).ledger (List.mem_filter.1 hy).1
  · intro ε' _ clock' engines' setup' commands' answers₀' answers' t₀ t m hsetup' hrun' hsource' hshared' k x y hx hy
      hpolicy
    obtain ⟨peer, hp, hdelay, -⟩ := draws_of_run hsetup hrun hsource hshared hx
    obtain ⟨peer', hp', hdelay', -⟩ := draws_of_run hsetup' hrun' hsource' hshared' hy
    rw [World.policy?, World.policy?, hp, hp'] at hpolicy
    rw [hdelay, hdelay', Peer.recorded_congr (Option.some.inj hpolicy)]

end

/-- A broadcast, a proposal and one more message. -/
def briskly : List Command := [.broadcast 0 [1], .proposeAt 1 ⟨[2]⟩, .send 0 [3]]

/-- The same messages while time passes, a peer is closed and another source is drawn from. -/
def leisurely : List Command :=
  [.updateAt 2, .broadcast 0 [1], .update 0, .time (.runAll 2), .newPeer 0 jittery none, .send 1 [4], .close 0,
    .proposeAt 1 ⟨[2]⟩, .time (.runAll 1), .dropMesh, .send 0 [3]]

theorem delays_by_order_leisurely : ∃ answers₀ s₀ answers s answers' s' x y,
    trio.run wiring = .ok (answers₀, s₀) ∧ s₀.run briskly = .ok (answers, s) ∧
      s₀.run leisurely = .ok (answers', s') ∧ (s.drawnSince s₀ 0)[4]? = some x ∧ (s'.drawnSince s₀ 0)[4]? = some y ∧
      x.clock.nanos = 0 ∧ 0 < y.clock.nanos ∧ x.delay = y.delay := by
  obtain ⟨answers₀, s₀, ⟨r, ⟨answers, s⟩, ⟨answers', s'⟩, x, y⟩, hsetup, hfind⟩ := exists_of_run trio wiring
    (fun s₀ => (s₀.world.sources[0]?.bind fun r => (s₀.run briskly).toOption.bind fun b =>
      (s₀.run leisurely).toOption.bind fun c => ((b.2.drawnSince s₀ 0)[4]?).bind fun x =>
        ((c.2.drawnSince s₀ 0)[4]?).map fun y => (r, b, c, x, y)).filter fun z =>
          ([z.2.1.2, z.2.2.1.2].all fun s => s.world.peers.all fun p => p.source ≠ 0 ||
            p.config.latency = jittery.latency && p.config.jitter = jittery.jitter) &&
          z.2.1.2.world.policy? z.2.2.2.1.peer = z.2.2.1.2.world.policy? z.2.2.2.2.peer &&
          z.2.2.2.1.clock.nanos = 0 && 0 < z.2.2.2.2.clock.nanos) (by decide +kernel)
  obtain ⟨hfound, hcheck⟩ := Option.filter_eq_some_iff.1 hfind
  obtain ⟨r', hr, hfound⟩ := Option.bind_eq_some_iff.1 hfound
  obtain ⟨b, hbrisk, hfound⟩ := Option.bind_eq_some_iff.1 hfound
  obtain ⟨c, hleisure, hfound⟩ := Option.bind_eq_some_iff.1 hfound
  obtain ⟨x', hx, hfound⟩ := Option.bind_eq_some_iff.1 hfound
  obtain ⟨y', hy, heq⟩ := Option.map_eq_some_iff.1 hfound
  cases heq
  simp only [Bool.and_eq_true, decide_eq_true_eq] at hcheck
  obtain ⟨⟨⟨hpeers, hpolicy⟩, hstart⟩, hlater⟩ := hcheck
  have hbrisk := toOption_eq_some.1 hbrisk
  have hleisure := toOption_eq_some.1 hleisure
  have hshared : ∀ t ∈ [s, s'], ∀ peer ∈ t.world.peers, peer.source = 0 →
      peer.latency = ⟨jittery.latency, jittery.jitter⟩ := by
    intro t ht peer hp hzero
    have hvalues := List.all_eq_true.1 (List.all_eq_true.1 hpeers t ht) peer hp
    simp only [hzero, ne_eq, not_true_eq_false, decide_false, Bool.false_or, Bool.and_eq_true, decide_eq_true_eq]
      at hvalues
    obtain ⟨hlatency, hjitter⟩ := hvalues
    rw [Peer.latency, hlatency, hjitter]
  have hagree := (delays_by_order hsetup hbrisk hr (hshared s (by simp))).2.2.2
  exact ⟨answers₀, s₀, answers, s, answers', s', x, y, hsetup, hbrisk, hleisure, hx, hy, hstart, hlater,
    hagree Engine default _ wiring leisurely answers₀ answers' s₀ s' 0 hsetup hleisure hr (hshared s' (by simp)) 4 x y
      hx hy hpolicy⟩

end Simulation

end VirtualMesh

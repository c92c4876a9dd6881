import Mathlib
import VirtualMesh.Engine.Basic
import VirtualMesh.Proofs.Simulation.Sound
import VirtualMesh.Proofs.Topology
import VirtualMesh.Random.Normal

/-!
# Commands as actions

Every command that is not refused is a trace of actions (`apply_trace`). Its messages are exactly
those that `sends` reads off the command and the state before it, in order.
-/

namespace VirtualMesh

def Command.config? : Command → Option Config
  | .newPeer _ config _ => some config
  | .buildMesh config _ => some config
  | _ => none

/-- What the actions of a command may be. -/
def Action.Within (c : Command) : Action → Prop
  | .close _ => (∃ handle, c = .close handle) ∨ c = .closeMesh
  | .receive i message => c = .receiveAt i message
  | .reject i error => c = .reject i error
  | .propose i state => c = .proposeAt i state ∨ ∃ handle, c = .propose handle state
  | .unlink i => ∃ count, c = .unlink i count
  | .addPeers peers => ∀ p ∈ peers, c.config? = some p.config
  | .setMesh mesh => mesh = none ∨ ∃ config engines, c = .buildMesh config engines
  | _ => True

variable {ε ρ : Type}

namespace World

theorem modifyPeer_eq_setPeer {w : World ε ρ} {p : Nat} {peer : Peer} (hp : w.peers[p]? = some peer)
    (f : Peer → Peer) : w.modifyPeer p f = w.setPeer p (f peer) := by
  obtain ⟨hlt, rfl⟩ := List.getElem?_eq_some_iff.1 hp
  rw [modifyPeer, setPeer, List.modify_eq_take_cons_drop hlt, List.set_eq_take_append_cons_drop,
    if_pos hlt]

theorem close_eq {w : World ε ρ} {p : Nat} {peer : Peer} (hp : w.peers[p]? = some peer) :
    (w.close p).2 = w.setPeer p { peer with signal := ⟨true⟩ } := by
  simp only [close, hp, Shutdown.close]
  exact modifyPeer_eq_setPeer hp _

theorem getElem?_peers_close (w : World ε ρ) {p q : Nat} (hq : p ≠ q) : (w.close p).2.peers[q]? = w.peers[q]? := by
  cases hp : w.peers[p]? with
  | none => simp only [close, hp]
  | some peer =>
    rw [close_eq hp]
    exact List.getElem?_set_ne hq

theorem unlinkFirst_sublist (owner : Nat) : ∀ (count : Nat) (ls : List Link),
    (unlinkFirst owner count ls).Sublist ls
  | 0, ls => by rw [unlinkFirst]
  | _ + 1, [] => List.Sublist.refl []
  | count + 1, l :: ls => by
    by_cases h : l.owner = owner
    · simp only [unlinkFirst, h, if_true]
      exact (unlinkFirst_sublist owner count ls).cons l
    · simp only [unlinkFirst, h, if_false]
      exact (unlinkFirst_sublist owner (count + 1) ls).cons_cons l

def modifyEngine (w : World ε ρ) (i : Nat) (f : ε → ε) : World ε ρ := { w with engines := w.engines.modify i f }

theorem modifyEngine_eq {w : World ε ρ} {i : Nat} {x : ε} (hx : w.engines[i]? = some x) (f : ε → ε) :
    w.modifyEngine i f = w.setEngine i (f x) := by
  obtain ⟨hlt, rfl⟩ := List.getElem?_eq_some_iff.1 hx
  rw [modifyEngine, setEngine, List.modify_eq_take_cons_drop hlt, List.set_eq_take_append_cons_drop, if_pos hlt]

theorem modifyEngine_eq_self {w : World ε ρ} {i : Nat} (hx : w.engines[i]? = none) (f : ε → ε) :
    w.modifyEngine i f = w := by
  rw [modifyEngine, List.modify_eq_self (List.getElem?_eq_none_iff.1 hx)]

section
variable [Consensus ε] {w : World ε ρ} {p : Nat} {peer : Peer} {x : ε}

theorem deliver_eq_absent (hp : w.peers[p]? = none) (payload : Bytes) (delay : Delay) :
    w.deliver p payload delay = .ok (.expired, w) := by
  simp only [deliver, hp]

theorem deliver_eq_map (hp : w.peers[p]? = some peer) (payload : Bytes) (delay : Delay) :
    w.deliver p payload delay = (peer.arrive delay payload.length).map fun arrived =>
      if peer.drops then (.dropped, w.setPeer p arrived)
      else (.delivered, (w.setPeer p arrived).modifyEngine peer.engine fun x => (Consensus.receive x payload).1) := by
  simp only [deliver, hp]
  cases peer.arrive delay payload.length with
  | error f => rfl
  | ok arrived =>
    cases hdrops : peer.drops with
    | true => rfl
    | false =>
      cases hx : w.engines[peer.engine]? with
      | none =>
        have hx' : (w.setPeer p arrived).engines[peer.engine]? = none := hx
        show Except.ok (Outcome.delivered, w.setPeer p arrived) = .ok (.delivered, (w.setPeer p arrived).modifyEngine _ _)
        rw [modifyEngine_eq_self hx']
      | some x =>
        have hx' : (w.setPeer p arrived).engines[peer.engine]? = some x := hx
        show Except.ok (Outcome.delivered, (w.setPeer p arrived).setEngine _ _) =
          .ok (.delivered, (w.setPeer p arrived).modifyEngine _ _)
        rw [modifyEngine_eq hx']

theorem deliver_eq (hp : w.peers[p]? = some peer) (hx : w.engines[peer.engine]? = some x)
    (hd : peer.drops = false) (payload : Bytes) (delay : Delay) :
    w.deliver p payload delay = (peer.stats.recordDelivery delay payload.length).map fun stats =>
      (.delivered, (w.setPeer p { peer with stats, inFlight := peer.inFlight - 1 }).setEngine
        peer.engine (Consensus.receive x payload).1) := by
  simp only [deliver, hp, Peer.arrive, hd, hx]
  cases peer.stats.recordDelivery delay payload.length <;> rfl

theorem deliver_eq_drop (hp : w.peers[p]? = some peer) (hd : peer.drops = true) (payload : Bytes)
    (delay : Delay) :
    w.deliver p payload delay = peer.stats.recordDrop.map fun stats =>
      (.dropped, w.setPeer p { peer with stats, inFlight := peer.inFlight - 1 }) := by
  simp only [deliver, hp, Peer.arrive, hd]
  cases peer.stats.recordDrop <;> rfl

theorem update_eq (hp : w.peers[p]? = some peer) (hx : w.engines[peer.engine]? = some x)
    (hopen : peer.isClosed = false) (clock : Instant) :
    w.update p clock = ⟨w.setEngine peer.engine (Consensus.update x).1, .armed,
      Ticker.arm peer.config.tick (.tick p) clock⟩ := by
  simp [update, hp, hx, hopen]

theorem update_eq_closed (hp : w.peers[p]? = some peer) (hclosed : peer.isClosed = true)
    (clock : Instant) : w.update p clock = ⟨w, .closed, []⟩ := by
  simp [update, hp, hclosed]

theorem peers_update (w : World ε ρ) (p : Nat) (clock : Instant) : (w.update p clock).world.peers = w.peers := by
  unfold update
  split
  · rfl
  · split
    · rfl
    · split <;> rfl

/-- A task changes the record of its own peer at most. -/
theorem peers_handler {task : Task} {clock : Instant} {r : Reaction Task Outcome (World ε ρ)}
    (h : handler task clock w = .ok r) :
    r.world.peers = w.peers ∨ ∃ new, r.world.peers = w.peers.set task.peer new := by
  cases task with
  | delivery p payload delay =>
    rw [handler] at h
    cases hp : w.peers[p]? with
    | none =>
      rw [deliver_eq_absent hp] at h
      cases h
      exact .inl rfl
    | some peer =>
      rw [deliver_eq_map hp] at h
      cases harrive : peer.arrive delay payload.length with
      | error f => rw [harrive] at h; cases h
      | ok arrived =>
        rw [harrive] at h
        cases h
        refine .inr ⟨arrived, ?_⟩
        cases peer.drops <;> rfl
  | tick p =>
    simp only [handler] at h
    split at h
    · cases h
      exact .inl (peers_update w p clock)
    · cases h
      exact .inl rfl

theorem getElem?_peers_handler {task : Task} {clock : Instant} {r : Reaction Task Outcome (World ε ρ)}
    (h : handler task clock w = .ok r) {q : Nat} (hq : task.peer ≠ q) : r.world.peers[q]? = w.peers[q]? := by
  rcases peers_handler h with hpeers | ⟨new, hpeers⟩
  · rw [hpeers]
  · rw [hpeers, List.getElem?_set_ne hq]

end

theorem hasLink_of_mem {w : World ε ρ} {l : Link} (hl : l ∈ w.links) : w.hasLink l.number = true :=
  List.any_eq_true.2 ⟨l, hl, decide_eq_true rfl⟩

theorem WellFormed.peerOfLink_eq {w : World ε ρ} (h : w.WellFormed) {l : Link} (hl : l ∈ w.links) :
    w.peerOfLink l.number = some l.peer := by
  cases hfind : w.links.find? fun m => m.number = l.number with
  | none =>
    have hne := List.find?_eq_none.1 hfind l hl
    simp at hne
  | some m =>
    have hnodup : (w.links.map Link.number).Nodup := by
      rw [List.Nodup, List.pairwise_map]
      exact h.numbered.imp fun hlt => Nat.ne_of_lt hlt
    have hnumber : m.number = l.number := by simpa using List.find?_some hfind
    obtain rfl := List.inj_on_of_nodup_map hnodup (List.mem_of_find?_eq_some hfind) hl hnumber
    rw [peerOfLink, hfind]
    rfl

theorem WellFormed.exists_peer {w : World ε ρ} (h : w.WellFormed) {p : Nat} (hp : p < w.peers.length) :
    ∃ peer x, w.peers[p]? = some peer ∧ w.engines[peer.engine]? = some x := by
  have hget := List.getElem?_eq_getElem hp
  have hengine := h.engines _ (List.mem_of_getElem? hget)
  exact ⟨_, _, hget, List.getElem?_eq_getElem hengine⟩

theorem WellFormed.peerOfHandle_lt {w : World ε ρ} (h : w.WellFormed) {handle p : Nat}
    (hp : w.peerOfHandle handle = some p) : p < w.peers.length := by
  have hget : w.handles[handle]? = some (some p) := Option.join_eq_some_iff.1 hp
  exact h.handles p (List.mem_of_getElem? hget)

theorem WellFormed.peerOfLink_lt {w : World ε ρ} (h : w.WellFormed) {number p : Nat}
    (hp : w.peerOfLink number = some p) : p < w.peers.length := by
  obtain ⟨l, hl, rfl⟩ := Option.map_eq_some_iff.1 hp
  exact h.links l (List.mem_of_find?_eq_some hl)

end World

namespace Simulation

section
variable [NormalSource ρ] [Consensus ε]

def flood (s : Simulation ε ρ) (engine : Nat) (state : State) : List (Nat × Bytes) :=
  match s.world.engines[engine]? with
  | none => []
  | some x =>
    match Consensus.propose x s.world.hasLink state with
    | .error _ => []
    | .ok (_, outgoing) =>
      outgoing.filterMap fun o => (s.world.peerOfLink o.link).map (·, o.payload)

/-- The messages that a command sends, each with the peer it goes through. -/
def sends (s : Simulation ε ρ) : Command → List (Nat × Bytes)
  | .send handle payload => (s.world.peerOfHandle handle).toList.map (·, payload)
  | .propose handle state =>
    match (s.world.peerOfHandle handle).bind fun p => s.world.peers[p]? with
    | none => []
    | some peer => s.flood peer.engine state
  | .proposeAt engine state => s.flood engine state
  | .broadcast place payload =>
    match s.world.mesh.map fun m => m.peersOf place with
    | some (Except.ok row) => row.map fun x => (x.2, payload)
    | _ => []
  | _ => []

/-- What is read off each command of a run and the state before it. -/
def collect {α : Type} (f : Simulation ε ρ → Command → List α) (s : Simulation ε ρ) :
    List Command → List α
  | [] => []
  | c :: cs =>
    f s c ++
      match s.apply c with
      | .error _ => []
      | .ok (_, s) => collect f s cs

end

variable [NormalSource ρ]

/-! ## Time -/

section
variable [Consensus ε] {s s' : Simulation ε ρ}

theorem fire_step (hs : s.Sound) {e : Entry Task} {rest : List (Entry Task)} (hq : s.queue = e :: rest)
    (h : s.fire World.handler e rest = .ok s') : Step s (.fire e) s' := by
  obtain ⟨r, hr, rfl⟩ := Machine.fire_eq_ok.1 h
  obtain ⟨peer, x, hp, hx⟩ := hs.world.exists_peer (hs.target_of_queue (hq ▸ List.mem_cons_self))
  cases ht : e.task with
  | delivery p payload delay =>
    rw [ht] at hr hp
    change s.world.peers[p]? = some peer at hp
    cases hd : peer.drops with
    | true =>
      rw [World.handler, World.deliver_eq_drop hp hd] at hr
      cases hstats : peer.stats.recordDrop with
      | error f => rw [hstats] at hr; cases hr
      | ok stats =>
        rw [hstats] at hr
        cases hr
        exact .drop hq ht hp hd hstats
    | false =>
      rw [World.handler, World.deliver_eq hp hx hd] at hr
      cases hstats : peer.stats.recordDelivery delay payload.length with
      | error f => rw [hstats] at hr; cases hr
      | ok stats =>
        rw [hstats] at hr
        cases hr
        exact .deliver hq ht hp hd hstats hx
  | tick p =>
    rw [ht] at hr hp
    change s.world.peers[p]? = some peer at hp
    simp only [World.handler] at hr
    cases halive : s.world.isAlive p with
    | false =>
      simp only [halive] at hr
      cases hr
      exact .idle hq ht (.inl ⟨rfl, halive⟩)
    | true =>
      simp only [halive, if_true] at hr
      cases hopen : peer.isClosed with
      | true =>
        rw [World.update_eq_closed hp hopen] at hr
        cases hr
        exact .idle hq ht (.inr ⟨rfl, halive, peer, hp, hopen⟩)
      | false =>
        rw [World.update_eq hp hx hopen] at hr
        cases hr
        exact .tick hq ht halive hp hopen hx

theorem runWhile_trace (hs : s.Sound) {due : Instant → Bool} {limit ran n : Nat}
    (h : s.runWhile World.handler due limit ran = .ok (n, s')) :
    ∃ as, Trace s as s' ∧ ∀ a ∈ as, ∃ e, a = .fire e := by
  induction limit generalizing s ran with
  | zero =>
    cases h
    exact ⟨[], .nil, by simp⟩
  | succ limit ih =>
    simp only [Machine.runWhile] at h
    cases hq : s.queue with
    | nil =>
      rw [hq] at h
      cases h
      exact ⟨[], .nil, by simp⟩
    | cons e rest =>
      simp only [hq] at h
      split at h
      · cases hf : s.fire World.handler e rest with
        | error f => rw [hf] at h; cases h
        | ok s₁ =>
          rw [hf] at h
          have hstep := fire_step hs hq hf
          obtain ⟨as, htrace, has⟩ := ih (hstep.sound hs) h
          exact ⟨.fire e :: as, .cons hstep htrace, List.forall_mem_cons.2 ⟨⟨e, rfl⟩, has⟩⟩
      · cases h
        exact ⟨[], .nil, by simp⟩

theorem runUntil_trace (hs : s.Sound) {deadline : Instant} {n : Nat}
    (h : World.dynamics.runUntil deadline s = .ok (n, s')) :
    ∃ as, Trace s as s' ∧ ∀ a ∈ as, (∃ t, a = .wait t) ∨ ∃ e, a = .fire e := by
  simp only [Dynamics.runUntil, Machine.runUntil] at h
  split at h
  · cases h
  · rename_i ran s₁ hrun
    split at h
    · cases h
    · rename_i hdue
      cases h
      obtain ⟨as, htrace, has⟩ := runWhile_trace hs hrun
      refine ⟨as ++ [.wait deadline], htrace.append (.single (.wait (by simpa using hdue))), ?_⟩
      intro a ha
      rcases List.mem_append.1 ha with ha | ha
      · exact .inr (has a ha)
      · exact .inl ⟨deadline, List.mem_singleton.1 ha⟩

theorem time_trace (hs : s.Sound) {step : ClockStep} {n : Nat}
    (h : World.dynamics.step s step = .ok (n, s')) :
    ∃ as, Trace s as s' ∧ ∀ a ∈ as, (∃ t, a = .wait t) ∨ ∃ e, a = .fire e := by
  cases step with
  | runNext =>
    simp only [Dynamics.step, Machine.runNext] at h
    cases hq : s.queue with
    | nil =>
      rw [hq] at h
      cases h
      exact ⟨[], .nil, by simp⟩
    | cons e rest =>
      simp only [hq] at h
      obtain ⟨s₁, hf, heq⟩ : ∃ s₁, s.fire World.handler e rest = .ok s₁ ∧ (1, s₁) = (n, s') := by
        cases hf : s.fire World.handler e rest with
        | error f => rw [World.dynamics, hf] at h; cases h
        | ok s₁ =>
          rw [World.dynamics, hf] at h
          exact ⟨s₁, rfl, Except.ok.inj h⟩
      cases heq
      exact ⟨[.fire e], .single (fire_step hs hq hf), by simp⟩
  | runUntil deadline => exact runUntil_trace hs h
  | advance span =>
    simp only [Dynamics.step, Dynamics.advance] at h
    split at h
    · cases h
    · exact runUntil_trace hs h
  | runAll limit =>
    obtain ⟨as, htrace, has⟩ := runWhile_trace hs h
    exact ⟨as, htrace, fun a ha => .inr (has a ha)⟩

end

/-! ## Messages, updates and closings -/

/-- What a send does, if the instant of the delivery exists. -/
theorem send_eq {s : Simulation ε ρ} {p : Nat} {peer : Peer} {source : ρ} (hp : s.world.peers[p]? = some peer)
    (hsource : s.world.sources[peer.source]? = some source) (payload : Bytes) : s.send p payload =
      match s.clock.add? (peer.recorded (peer.latency.sample source).1).clamped with
      | none => .error .instantOverflow
      | some t => .ok (Machine.put ⟨t, .delivery p payload (peer.recorded (peer.latency.sample source).1)⟩ (s.withWorld
          ((s.world.setSource peer.source (peer.latency.sample source).2).setPeer p
            { peer with inFlight := peer.inFlight + 1 }))) := by
  have hp' : (s.world.setSource peer.source (peer.latency.sample source).2).peers[p]? = some peer := hp
  simp only [send, hp, hsource]
  cases s.clock.add? (peer.recorded (peer.latency.sample source).1).clamped with
  | none => rfl
  | some t => simp only [World.modifyPeer_eq_setPeer hp']

section
variable [Consensus ε] {s s' : Simulation ε ρ}

theorem send_step (hs : s.Sound) {p : Nat} {payload : Bytes} (hp : p < s.world.peers.length)
    (h : s.send p payload = .ok s') : Step s (.send p payload) s' := by
  obtain ⟨peer, x, hget, -⟩ := hs.world.exists_peer hp
  have hsource := hs.world.sources peer (List.mem_of_getElem? hget)
  have hr := List.getElem?_eq_getElem hsource
  rw [send_eq hget hr] at h
  split at h
  · cases h
  · rename_i fireAt hat
    cases h
    exact .send hget hr hat

theorem Step.length_le {a : Action} (hstep : Step s a s') :
    s.world.peers.length ≤ s'.world.peers.length := by
  simpa using hstep.origins_prefix.length_le

theorem sendAll_trace (hs : s.Sound) {messages : List (Nat × Bytes)}
    (hm : ∀ m ∈ messages, m.1 < s.world.peers.length) (h : s.sendAll messages = .ok s') :
    Trace s (messages.map fun m => .send m.1 m.2) s' := by
  induction messages generalizing s with
  | nil => cases h; exact .nil
  | cons m ms ih =>
    obtain ⟨hm, hms⟩ := List.forall_mem_cons.1 hm
    cases hsend : s.send m.1 m.2 with
    | error f => simp [sendAll, List.foldlM_cons, hsend, bind, Except.bind] at h
    | ok s₁ =>
      have hstep := send_step hs hm hsend
      have hrest : s₁.sendAll ms = .ok s' := by
        simpa [sendAll, List.foldlM_cons, hsend, bind, Except.bind] using h
      exact .cons hstep (ih (hstep.sound hs) (fun x hx => Nat.lt_of_lt_of_le (hms x hx) hstep.length_le) hrest)

omit [NormalSource ρ] in
theorem peers_update (s : Simulation ε ρ) (p : Nat) : (s.update p).2.world.peers = s.world.peers := by
  rw [update, Machine.absorb, Machine.world_putAll, Machine.world_withWorld, World.peers_update]

theorem update_trace (hs : s.Sound) {p : Nat} (hp : p < s.world.peers.length) :
    ∃ as, Trace s as (s.update p).2 ∧ ∀ a ∈ as, a = .update p := by
  obtain ⟨peer, x, hget, hx⟩ := hs.world.exists_peer hp
  cases hopen : peer.isClosed with
  | true =>
    have heq : (s.update p).2 = s := by rw [update, World.update_eq_closed hget hopen]; rfl
    rw [heq]
    exact ⟨[], .nil, by simp⟩
  | false =>
    have hstep : Step s (.update p) (s.update p).2 := by
      rw [update, World.update_eq hget hx hopen]
      exact .update hget hopen hx
    exact ⟨[.update p], .single hstep, by simp⟩

theorem updateAll_trace (hs : s.Sound) {peers : List Nat} (hp : ∀ p ∈ peers, p < s.world.peers.length) :
    ∃ as, Trace s as (s.updateAll peers) ∧ ∀ a ∈ as, ∃ p, a = .update p := by
  induction peers generalizing s with
  | nil => exact ⟨[], .nil, by simp⟩
  | cons p ps ih =>
    obtain ⟨hp, hps⟩ := List.forall_mem_cons.1 hp
    obtain ⟨as, htrace, has⟩ := update_trace hs hp
    have hlen := htrace.origins_prefix.length_le
    rw [World.length_origins, World.length_origins] at hlen
    obtain ⟨bs, htrace', hbs⟩ := ih (htrace.sound hs) fun q hq => Nat.lt_of_lt_of_le (hps q hq) hlen
    refine ⟨as ++ bs, htrace.append htrace', ?_⟩
    intro a ha
    rcases List.mem_append.1 ha with ha | ha
    · exact ⟨p, has a ha⟩
    · exact hbs a ha

theorem close_step (hs : s.Sound) {p : Nat} (hp : p < s.world.peers.length) :
    Step s (.close p) (s.withWorld (s.world.close p).2) := by
  obtain ⟨peer, -, hget, -⟩ := hs.world.exists_peer hp
  rw [World.close_eq hget]
  exact .close hget

theorem closeAll_trace (hs : s.Sound) {peers : List Nat} (hp : ∀ p ∈ peers, p < s.world.peers.length) :
    Trace s (peers.map .close) (s.withWorld (s.world.closeAll peers).2) := by
  induction peers generalizing s with
  | nil => exact .nil
  | cons p ps ih =>
    obtain ⟨hp, hps⟩ := List.forall_mem_cons.1 hp
    have hstep := close_step hs hp
    exact .cons hstep (ih (hstep.sound hs) fun q hq => Nat.lt_of_lt_of_le (hps q hq) hstep.length_le)

theorem propose_trace (hs : s.Sound) {engine : Nat} {state : State} (hi : engine < s.world.engines.length)
    (h : s.propose engine state = .ok s') :
    Trace s (.propose engine state :: (s.flood engine state).map fun m => .send m.1 m.2) s' := by
  have hx := List.getElem?_eq_getElem hi
  simp only [propose, hx] at h
  cases hy : Consensus.propose s.world.engines[engine] s.world.hasLink state with
  | error f => rw [hy] at h; cases h
  | ok r =>
    obtain ⟨y, outgoing⟩ := r
    rw [hy] at h
    have hstep : Step s (.propose engine state) _ := .propose hx hy
    simp only [flood, hx, hy]
    refine .cons hstep (sendAll_trace (hstep.sound hs) ?_ h)
    intro m hm
    obtain ⟨o, -, ho⟩ := List.mem_filterMap.1 hm
    obtain ⟨p, hp, rfl⟩ := Option.map_eq_some_iff.1 ho
    exact hs.world.peerOfLink_lt hp

theorem attachTo_step {engine : Nat} {peers : List Nat} (hp : ∀ p ∈ peers, p < s.world.peers.length)
    (h : s.attachTo engine peers = some s') : Step s (.attach engine peers) s' := by
  simp only [attachTo, Option.bind_eq_bind, Option.bind_eq_some_iff, Option.pure_def,
    Option.some.injEq] at h
  obtain ⟨x, hx, y, hy, rfl⟩ := h
  exact .attach hp hx hy

theorem wire_trace {rows : List (List (Nat × Nat))} {engine : Nat} (hs : s.Sound)
    (hp : ∀ row ∈ rows, ∀ x ∈ row, x.2 < s.world.peers.length) :
    ∃ as, Trace s as (s.wire engine rows) ∧ ∀ a ∈ as, ∃ i peers, a = .attach i peers := by
  induction rows generalizing s engine with
  | nil => exact ⟨[], .nil, by simp⟩
  | cons row rows ih =>
    obtain ⟨hrow, hrows⟩ := List.forall_mem_cons.1 hp
    cases hattach : s.attachTo engine (row.map Prod.snd) with
    | none =>
      simp only [wire, hattach, Option.getD_none]
      exact ih hs hrows
    | some s₁ =>
      have hpeers : ∀ p ∈ row.map Prod.snd, p < s.world.peers.length := by
        intro p hp
        obtain ⟨x, hx, rfl⟩ := List.mem_map.1 hp
        exact hrow x hx
      have hstep := attachTo_step hpeers hattach
      simp only [wire, hattach, Option.getD_some]
      have hrows' : ∀ row ∈ rows, ∀ x ∈ row, x.2 < s₁.world.peers.length := fun row hr x hx =>
        Nat.lt_of_lt_of_le (hrows row hr x hx) hstep.length_le
      obtain ⟨as, htrace, has⟩ : ∃ as, Trace s₁ as (s₁.wire (engine + 1) rows) ∧
          ∀ a ∈ as, ∃ i peers, a = .attach i peers := ih (hstep.sound hs) hrows'
      exact ⟨_ :: as, .cons hstep htrace, List.forall_mem_cons.2 ⟨⟨_, _, rfl⟩, has⟩⟩

end

/-! ## Commands -/

theorem bind_eq_ok {κ α β : Type} {x : Except κ α} {f : α → Except κ β} {b : β} :
    x >>= f = .ok b ↔ ∃ a, x = .ok a ∧ f a = .ok b := by
  cases x with
  | error e => exact ⟨nofun, nofun⟩
  | ok a => exact ⟨fun h => ⟨a, rfl, h⟩, by rintro ⟨_, ⟨⟩, h⟩; exact h⟩

theorem pure_eq_ok {κ α : Type} {a b : α} : (pure a : Except κ α) = .ok b ↔ a = b :=
  ⟨Except.ok.inj, congrArg Except.ok⟩

theorem require_eq_ok {α : Type} {o : Option α} {a : α} : require o = .ok a ↔ o = some a := by
  cases o <;> simp [require]

theorem attempt_eq_ok {α : Type} {x : Except Fault α} {a : α} : attempt x = .ok a ↔ x = .ok a := by
  cases x <;> simp [attempt]

theorem toOption_eq_some {κ α : Type} {x : Except κ α} {a : α} : x.toOption = some a ↔ x = .ok a := by
  cases x <;> simp [Except.toOption]

theorem mem_of_mapM_eq_ok {κ α β : Type} {f : α → Except κ β} :
    ∀ {l : List α} {bs : List β}, l.mapM f = .ok bs → ∀ b ∈ bs, ∃ a ∈ l, f a = .ok b
  | [], bs, h, b, hb => by
    rw [List.mapM_nil] at h
    rw [← pure_eq_ok.1 h] at hb
    cases hb
  | a :: l, bs, h, b, hb => by
    simp only [List.mapM_cons, bind_eq_ok, pure_eq_ok] at h
    obtain ⟨b', hb', bs', hbs', rfl⟩ := h
    rcases List.mem_cons.1 hb with rfl | hb
    · exact ⟨a, List.mem_cons_self, hb'⟩
    · obtain ⟨a', ha', hf⟩ := mem_of_mapM_eq_ok hbs' b hb
      exact ⟨a', List.mem_cons_of_mem _ ha', hf⟩

theorem ok_of_mapM_eq_ok {κ α β : Type} {f : α → Except κ β} :
    ∀ {l : List α} {bs : List β}, l.mapM f = .ok bs → ∀ a ∈ l, ∃ b, f a = .ok b
  | [], _, _, a, ha => nomatch ha
  | a :: l, bs, h, a', ha' => by
    simp only [List.mapM_cons, bind_eq_ok, pure_eq_ok] at h
    obtain ⟨b, hb, bs', hbs', rfl⟩ := h
    rcases List.mem_cons.1 ha' with rfl | ha'
    · exact ⟨b, hb⟩
    · exact ok_of_mapM_eq_ok hbs' a' ha'

section
variable [Consensus ε] {s s' : Simulation ε ρ}

/-- What a command amounts to. -/
def Actions (s : Simulation ε ρ) (c : Command) (s' : Simulation ε ρ) : Prop :=
  ∃ as, Trace s as s' ∧ as.filterMap Action.sent? = s.sends c ∧ ∀ a ∈ as, a.Within c

theorem sent?_send (messages : List (Nat × Bytes)) :
    (messages.map fun m => Action.send m.1 m.2).filterMap Action.sent? = messages := by
  induction messages with
  | nil => rfl
  | cons m ms ih => simp [Action.sent?, ih]

theorem Actions.quiet {c : Command} {as : List Action} (htrace : Trace s as s') (hc : s.sends c = [])
    (has : ∀ a ∈ as, a.sent? = none ∧ a.Within c) : s.Actions c s' := by
  refine ⟨as, htrace, ?_, fun a ha => (has a ha).2⟩
  rw [hc]
  exact List.filterMap_eq_nil_iff.2 fun a ha => (has a ha).1

theorem Actions.nothing {c : Command} (hc : s.sends c = []) : s.Actions c s :=
  .quiet .nil hc (by simp)

theorem Actions.step {c : Command} {a : Action} (h : Step s a s') (hc : s.sends c = [])
    (hsent : a.sent? = none) (hwithin : a.Within c) : s.Actions c s' :=
  .quiet (.single h) hc (by simp [hsent, hwithin])

theorem apply_time_trace (hs : s.Sound) {step : ClockStep} {answer : Answer}
    (h : s.apply (.time step) = .ok (answer, s')) :
    ∃ as, Trace s as s' ∧ ∀ a ∈ as, (∃ t, a = .wait t) ∨ ∃ e, a = .fire e := by
  simp only [apply, bind_eq_ok, attempt_eq_ok, pure_eq_ok] at h
  obtain ⟨⟨ran, s₁⟩, hrun, heq⟩ := h
  cases heq
  exact time_trace hs hrun

theorem handOut_step (hs : s.Sound) {p : Nat} (hp : p < s.world.peers.length) :
    Step s .hold (s.handOut p).2 := by
  have hhandles : ∀ q, some q ∈ s.world.handles ++ [some p] → q < s.world.peers.length := by
    intro q hq
    rcases List.mem_append.1 hq with hq | hq
    · exact hs.world.handles q hq
    · obtain rfl : q = p := by simpa using hq
      exact hp
  exact .hold hhandles hs.world.shared

theorem addPeer_trace (hs : s.Sound) {engine source : Nat} {config : Config}
    (he : engine < s.world.engines.length) (hr : source < s.world.sources.length)
    (hc : config.validate = .ok ()) :
    Trace s [.addPeers [.fresh engine source config], .hold] (s.addPeer engine source config).2 := by
  have hstep : Step s (.addPeers [.fresh engine source config]) _ :=
    .addPeers (List.forall_mem_singleton.2 ⟨rfl, he, hr, hc⟩)
  refine .cons hstep (.single (handOut_step (hstep.sound hs) ?_))
  simp

omit [Consensus ε] in
/-- A new peer is refused, or draws from a shared source or from one of its own. -/
theorem newPeer_cases {engine : Nat} {config : Config} {shared : Option Nat} {answer : Answer}
    (h : s.newPeer engine config shared = .ok (answer, s')) :
    s' = s ∨ engine < s.world.engines.length ∧ config.validate = .ok () ∧
      ((∃ source ∈ s.world.shared, s' = (s.addPeer engine source config).2) ∨
        s' = ((s.addSource config.seed).2.addPeer engine s.world.sources.length config).2) := by
  simp only [newPeer, bind_eq_ok, require_eq_ok] at h
  obtain ⟨x, hx, h⟩ := h
  have he := (List.getElem?_eq_some_iff.1 hx).1
  cases shared with
  | some n =>
    simp only [bind_eq_ok] at h
    obtain ⟨source, hsource, h⟩ := h
    obtain ⟨r, hr, rfl⟩ : ∃ r, s.world.shared[n]? = some r ∧ some r = source := by
      cases hr : s.world.shared[n]? with
      | none => rw [hr] at hsource; cases hsource
      | some r => rw [hr] at hsource; cases hsource; exact ⟨r, rfl, rfl⟩
    cases hc : config.validate with
    | error e =>
      simp only [hc, pure_eq_ok] at h
      cases h
      exact .inl rfl
    | ok _ =>
      simp only [hc, pure_eq_ok] at h
      cases h
      exact .inr ⟨he, rfl, .inl ⟨r, List.mem_of_getElem? hr, rfl⟩⟩
  | none =>
    simp only [bind_eq_ok, pure_eq_ok] at h
    obtain ⟨_, rfl, h⟩ := h
    cases hc : config.validate with
    | error e =>
      simp only [hc, pure_eq_ok] at h
      cases h
      exact .inl rfl
    | ok _ =>
      simp only [hc, pure_eq_ok] at h
      cases h
      exact .inr ⟨he, rfl, .inr rfl⟩

theorem addSource_step (s : Simulation ε ρ) (seed : Option UInt64) : Step s .addSource (s.addSource seed).2 :=
  .addSource

theorem newPeer_actions (hs : s.Sound) {engine : Nat} {config : Config} {shared : Option Nat}
    {answer : Answer} (h : s.newPeer engine config shared = .ok (answer, s')) :
    s.Actions (.newPeer engine config shared) s' := by
  obtain rfl | ⟨he, hc, ⟨source, hr, rfl⟩ | rfl⟩ := newPeer_cases h
  · exact .nothing rfl
  · exact .quiet (addPeer_trace hs he (hs.world.shared source hr) hc) rfl
      (by simp [Action.sent?, Action.Within, Command.config?, Peer.fresh])
  · have hstep := addSource_step s config.seed
    exact .quiet (.cons hstep (addPeer_trace (hstep.sound hs) he (by simp [addSource]) hc)) rfl
      (by simp [Action.sent?, Action.Within, Command.config?, Peer.fresh])

def meshPeers (engines : List Nat) (source : Nat) (config : Config) : List Peer :=
  (Mesh.targets engines).map fun x => .fresh x.1 source config

omit [Consensus ε] in
theorem buildMesh_eq_ok {engines : List Nat} {config : Config} {w w' : World ε ρ}
    (h : w.buildMesh engines config = .ok w') : config.validate = .ok () ∧
      w' = { w with
        sources := w.sources ++ [NormalSource.make config.seed w.sources.length]
        peers := w.peers ++ meshPeers engines w.sources.length config
        mesh := some (.number engines w.peers.length) } := by
  simp only [World.buildMesh] at h
  split at h
  · cases h
  · split at h
    · cases h
    · rename_i hvalid
      cases h
      simp only [meshPeers, Mesh.targets, List.map_flatMap]
      exact ⟨hvalid, trivial⟩

theorem buildMesh_trace (hs : s.Sound) {engines : List Nat} {config : Config} {w : World ε ρ}
    (he : ∀ e ∈ engines, e < s.world.engines.length) (h : s.world.buildMesh engines config = .ok w) :
    Trace s [.addSource, .addPeers (meshPeers engines s.world.sources.length config),
      .setMesh (some (.number engines s.world.peers.length))] (s.withWorld w) := by
  obtain ⟨hvalid, rfl⟩ := buildMesh_eq_ok h
  have hsource : Step s .addSource (s.withWorld { s.world with
    sources := s.world.sources ++ [NormalSource.make config.seed s.world.sources.length] }) := .addSource
  have hpeers : Step _ (.addPeers (meshPeers engines s.world.sources.length config)) _ :=
    .addPeers (s := s.withWorld { s.world with
      sources := s.world.sources ++ [NormalSource.make config.seed s.world.sources.length] }) (by
        intro p hp
        obtain ⟨x, hx, rfl⟩ := List.mem_map.1 hp
        obtain ⟨place, -, hx⟩ := List.mem_flatMap.1 hx
        have hmem := List.mem_of_getElem? (Mesh.mem_others.1 hx).1
        exact ⟨rfl, he _ hmem, by simp [Peer.fresh], hvalid⟩)
  have hsound := hpeers.sound (hsource.sound hs)
  refine .cons hsource (.cons hpeers (.single ?_))
  refine .setMesh ?_
  intro m hm p hp
  cases hm
  have hlt := Mesh.lt_of_mem_number hp
  simpa [meshPeers] using hlt

/-- Every command that is not refused is a trace of its actions. -/
theorem apply_actions (hs : s.Sound) {c : Command} {answer : Answer}
    (h : s.apply c = .ok (answer, s')) : s.Actions c s' := by
  cases c with
  | time step =>
    obtain ⟨as, htrace, has⟩ := apply_time_trace hs h
    refine .quiet htrace rfl ?_
    intro a ha
    rcases has a ha with ⟨t, rfl⟩ | ⟨e, rfl⟩ <;> exact ⟨rfl, trivial⟩
  | newSource seed =>
    simp only [apply, pure_eq_ok] at h
    cases h
    have hstep : Step s .addSource (s.addSource (some seed)).2 := .addSource
    have hsound := hstep.sound hs
    have hshared : ∀ n ∈ s.world.shared ++ [s.world.sources.length],
        n < (s.addSource (some seed)).2.world.sources.length := by
      intro n hn
      rcases List.mem_append.1 hn with hn | hn
      · exact hsound.world.shared n hn
      · simp [addSource, List.mem_singleton.1 hn]
    have hhold : Step (s.addSource (some seed)).2 .hold _ := .hold hsound.world.handles hshared
    exact .quiet (.cons hstep (.single hhold)) rfl (by simp [Action.sent?, Action.Within])
  | newPeer engine config shared => exact newPeer_actions hs h
  | clonePeer handle =>
    simp only [apply, bind_eq_ok, require_eq_ok, pure_eq_ok] at h
    obtain ⟨p, hp, heq⟩ := h
    cases heq
    exact .step (handOut_step hs (hs.world.peerOfHandle_lt hp)) rfl rfl trivial
  | dropPeer handle =>
    simp only [apply, bind_eq_ok, require_eq_ok, pure_eq_ok] at h
    obtain ⟨p, hp, heq⟩ := h
    cases heq
    refine .step (.hold ?_ hs.world.shared) rfl rfl trivial
    intro q hq
    rcases List.mem_or_eq_of_mem_set hq with hq | hq
    · exact hs.world.handles q hq
    · cases hq
  | send handle payload =>
    simp only [apply, bind_eq_ok, require_eq_ok, attempt_eq_ok, pure_eq_ok] at h
    obtain ⟨p, hp, s₁, hsend, heq⟩ := h
    cases heq
    refine ⟨[.send p payload], .single (send_step hs (hs.world.peerOfHandle_lt hp) hsend), ?_, by
      simp [Action.Within]⟩
    simp [sends, hp, Action.sent?]
  | update handle =>
    simp only [apply, bind_eq_ok, require_eq_ok, pure_eq_ok] at h
    obtain ⟨p, hp, heq⟩ := h
    cases heq
    obtain ⟨as, htrace, has⟩ := update_trace hs (hs.world.peerOfHandle_lt hp)
    refine .quiet htrace rfl ?_
    intro a ha
    rw [has a ha]
    exact ⟨rfl, trivial⟩
  | close handle =>
    simp only [apply, bind_eq_ok, require_eq_ok, pure_eq_ok] at h
    obtain ⟨p, hp, heq⟩ := h
    cases heq
    exact .step (close_step hs (hs.world.peerOfHandle_lt hp)) rfl rfl (.inl ⟨handle, rfl⟩)
  | propose handle state =>
    simp only [apply, bind_eq_ok, require_eq_ok, attempt_eq_ok, pure_eq_ok] at h
    obtain ⟨p, hp, peer, hpeer, s₁, hpropose, heq⟩ := h
    cases heq
    have hi := hs.world.engines peer (List.mem_of_getElem? hpeer)
    refine ⟨_, propose_trace hs hi hpropose, ?_, ?_⟩
    · rw [List.filterMap_cons_none rfl, sent?_send]
      simp [sends, hp, hpeer]
    · refine List.forall_mem_cons.2 ⟨.inr ⟨handle, rfl⟩, ?_⟩
      intro a ha
      obtain ⟨m, -, rfl⟩ := List.mem_map.1 ha
      trivial
  | receiveAt engine message =>
    simp only [apply, bind_eq_ok, require_eq_ok, pure_eq_ok] at h
    obtain ⟨x, hx, heq⟩ := h
    cases heq
    exact .step (.receive hx) rfl rfl rfl
  | updateAt engine =>
    simp only [apply, bind_eq_ok, require_eq_ok, pure_eq_ok] at h
    obtain ⟨x, hx, heq⟩ := h
    cases heq
    exact .step (.updateEngine hx) rfl rfl trivial
  | proposeAt engine state =>
    simp only [apply, bind_eq_ok, require_eq_ok, attempt_eq_ok, pure_eq_ok] at h
    obtain ⟨x, hx, s₁, hpropose, heq⟩ := h
    cases heq
    refine ⟨_, propose_trace hs (List.getElem?_eq_some_iff.1 hx).1 hpropose, ?_, ?_⟩
    · rw [List.filterMap_cons_none rfl, sent?_send]
      simp [sends]
    · refine List.forall_mem_cons.2 ⟨.inl rfl, ?_⟩
      intro a ha
      obtain ⟨m, -, rfl⟩ := List.mem_map.1 ha
      trivial
  | reject engine error =>
    simp only [apply, bind_eq_ok, require_eq_ok, pure_eq_ok] at h
    obtain ⟨x, hx, y, hy, heq⟩ := h
    cases heq
    exact .step (.reject hx hy) rfl rfl rfl
  | attach engine handles =>
    simp only [apply, bind_eq_ok, require_eq_ok, pure_eq_ok] at h
    obtain ⟨peers, hpeers, s₁, hattach, heq⟩ := h
    cases heq
    refine .step (attachTo_step ?_ hattach) rfl rfl trivial
    intro p hp
    obtain ⟨handle, -, hh⟩ := mem_of_mapM_eq_ok hpeers p hp
    exact hs.world.peerOfHandle_lt (require_eq_ok.1 hh)
  | unlink engine count =>
    simp only [apply, bind_eq_ok, require_eq_ok, pure_eq_ok] at h
    obtain ⟨x, hx, heq⟩ := h
    cases heq
    exact .step (.unlink (World.unlinkFirst_sublist ..)) rfl rfl ⟨count, rfl⟩
  | buildMesh config engines =>
    simp only [apply, bind_eq_ok] at h
    obtain ⟨es, hes, h⟩ := h
    split at h
    · rw [pure_eq_ok] at h
      cases h
      exact .nothing rfl
    · rename_i w hw
      rw [pure_eq_ok] at h
      cases h
      refine .quiet (buildMesh_trace hs ?_ hw) rfl ?_
      · intro e he
        obtain ⟨x, hx⟩ := ok_of_mapM_eq_ok hes e he
        exact (List.getElem?_eq_some_iff.1 (require_eq_ok.1 hx)).1
      · have hconfig : ∀ p ∈ meshPeers (engines.getD (List.range s.world.engines.length))
            s.world.sources.length config, some config = some p.config := by
          intro p hp
          obtain ⟨x, -, rfl⟩ := List.mem_map.1 hp
          rfl
        simpa [Action.sent?, Action.Within, Command.config?] using hconfig
  | holdPeer place target =>
    simp only [apply, bind_eq_ok, require_eq_ok] at h
    obtain ⟨m, hm, h⟩ := h
    split at h
    · rw [pure_eq_ok] at h
      cases h
      exact .nothing rfl
    · rename_i p hp
      rw [pure_eq_ok] at h
      cases h
      exact .step (handOut_step hs (hs.world.mesh m hm p (Mesh.mem_peers_of_peer hp))) rfl rfl trivial
  | broadcast place payload =>
    simp only [apply, bind_eq_ok, require_eq_ok] at h
    obtain ⟨m, hm, h⟩ := h
    split at h
    · rename_i e he
      rw [pure_eq_ok] at h
      cases h
      exact .nothing (by simp [sends, hm, he])
    · rename_i row hrow
      simp only [bind_eq_ok, attempt_eq_ok, pure_eq_ok] at h
      obtain ⟨s₁, hsend, heq⟩ := h
      cases heq
      refine ⟨_, sendAll_trace hs ?_ hsend, ?_, ?_⟩
      · intro x hx
        obtain ⟨y, hy, rfl⟩ := List.mem_map.1 hx
        exact hs.world.mesh m hm _ (Mesh.mem_peers_of_peersOf hrow hy)
      · rw [sent?_send]
        simp [sends, hm, hrow]
      · intro a ha
        obtain ⟨x, -, rfl⟩ := List.mem_map.1 ha
        trivial
  | wireMesh =>
    simp only [apply, bind_eq_ok, require_eq_ok, pure_eq_ok] at h
    obtain ⟨m, hm, heq⟩ := h
    cases heq
    have hrows : ∀ row ∈ m.rows, ∀ x ∈ row, x.2 < s.world.peers.length := fun row hrow x hx =>
      hs.world.mesh m hm _ (List.mem_map_of_mem (List.mem_flatten_of_mem hrow hx))
    obtain ⟨as, htrace, has⟩ := wire_trace hs hrows
    refine .quiet htrace rfl ?_
    intro a ha
    obtain ⟨i, peers, rfl⟩ := has a ha
    exact ⟨rfl, trivial⟩
  | startMesh =>
    simp only [apply, bind_eq_ok, require_eq_ok, pure_eq_ok] at h
    obtain ⟨m, hm, heq⟩ := h
    cases heq
    obtain ⟨as, htrace, has⟩ := updateAll_trace hs (hs.world.mesh m hm)
    refine .quiet htrace rfl ?_
    intro a ha
    obtain ⟨p, rfl⟩ := has a ha
    exact ⟨rfl, trivial⟩
  | closeMesh =>
    simp only [apply, bind_eq_ok, require_eq_ok, pure_eq_ok] at h
    obtain ⟨m, hm, heq⟩ := h
    cases heq
    refine .quiet (closeAll_trace hs (hs.world.mesh m hm)) rfl ?_
    intro a ha
    obtain ⟨p, -, rfl⟩ := List.mem_map.1 ha
    exact ⟨rfl, .inr rfl⟩
  | dropMesh =>
    simp only [apply, bind_eq_ok, require_eq_ok, pure_eq_ok] at h
    obtain ⟨m, hm, heq⟩ := h
    cases heq
    exact .step (.setMesh fun m hm => nomatch hm) rfl rfl (.inl rfl)

/-- What is found in the state after a run is found because the run is not refused. -/
theorem exists_of_run {α : Type} (s : Simulation ε ρ) (cs : List Command) (f : Simulation ε ρ → Option α)
    (h : ((s.run cs).toOption.bind fun r => f r.2).isSome = true) :
    ∃ answers s' a, s.run cs = .ok (answers, s') ∧ f s' = some a := by
  cases hrun : s.run cs with
  | error r =>
    rw [hrun] at h
    cases h
  | ok r =>
    rw [hrun] at h
    obtain ⟨a, ha⟩ := Option.isSome_iff_exists.1 h
    exact ⟨r.1, r.2, a, rfl, ha⟩

theorem run_cons_eq_ok {c : Command} {cs : List Command} {answers : List Answer}
    (h : s.run (c :: cs) = .ok (answers, s')) : ∃ answer s₁ rest,
      s.apply c = .ok (answer, s₁) ∧ s₁.run cs = .ok (rest, s') := by
  simp only [run] at h
  cases happly : s.apply c with
  | error r => rw [happly] at h; cases h
  | ok r =>
    obtain ⟨answer, s₁⟩ := r
    simp only [happly] at h
    cases hrun : s₁.run cs with
    | error r => rw [hrun] at h; cases h
    | ok r => rw [hrun] at h; cases h; exact ⟨answer, s₁, _, rfl, hrun⟩

theorem run_append {cs ds : List Command} {answers₀ answers₁ : List Answer} {s₁ : Simulation ε ρ}
    (h₀ : s.run cs = .ok (answers₀, s₁)) (h₁ : s₁.run ds = .ok (answers₁, s')) :
    s.run (cs ++ ds) = .ok (answers₀ ++ answers₁, s') := by
  induction cs generalizing s answers₀ with
  | nil => cases h₀; exact h₁
  | cons c cs ih =>
    obtain ⟨answer, s₂, rest, happly, hrun⟩ := run_cons_eq_ok h₀
    simp only [run, happly, hrun, Except.map] at h₀
    cases h₀
    simp only [List.cons_append, run, happly, ih hrun]
    rfl

theorem run_append_eq_ok {cs ds : List Command} {answers : List Answer}
    (h : s.run (cs ++ ds) = .ok (answers, s')) : ∃ answers₀ s₁ answers₁,
      s.run cs = .ok (answers₀, s₁) ∧ s₁.run ds = .ok (answers₁, s') := by
  induction cs generalizing s answers with
  | nil => exact ⟨[], s, answers, rfl, h⟩
  | cons c cs ih =>
    obtain ⟨answer, s₂, rest, happly, hrun⟩ := run_cons_eq_ok h
    obtain ⟨answers₀, s₁, answers₁, hcs, hds⟩ := ih hrun
    refine ⟨answer :: answers₀, s₁, answers₁, ?_, hds⟩
    simp only [run, happly, hcs]
    rfl

theorem collect_append {α : Type} {f : Simulation ε ρ → Command → List α} {cs : List Command} (ds : List Command)
    {answers : List Answer} (h : s.run cs = .ok (answers, s')) :
    s.collect f (cs ++ ds) = s.collect f cs ++ s'.collect f ds := by
  induction cs generalizing s answers with
  | nil => cases h; rfl
  | cons c cs ih =>
    obtain ⟨answer, s₁, rest, happly, hrun⟩ := run_cons_eq_ok h
    rw [List.cons_append, collect, collect, happly, List.append_assoc, ← ih hrun]

theorem collect_eq_nil {α : Type} {f : Simulation ε ρ → Command → List α} {cs : List Command}
    (h : ∀ (s : Simulation ε ρ), ∀ c ∈ cs, f s c = []) (s : Simulation ε ρ) : s.collect f cs = [] := by
  induction cs generalizing s with
  | nil => rfl
  | cons c cs ih =>
    rw [collect, h s c List.mem_cons_self, List.nil_append]
    split
    · rfl
    · exact ih (fun s c hc => h s c (List.mem_cons_of_mem _ hc)) _

theorem run_induct {P : Simulation ε ρ → Prop} {C : Command → Prop}
    (hkeep : ∀ {s c answer s'}, C c → P s → s.apply c = .ok (answer, s') → P s') {cs : List Command}
    {answers : List Answer} (h : s.run cs = .ok (answers, s')) (hcs : ∀ c ∈ cs, C c) (hs : P s) : P s' := by
  induction cs generalizing s answers with
  | nil => cases h; exact hs
  | cons c cs ih =>
    obtain ⟨hc, hcs⟩ := List.forall_mem_cons.1 hcs
    obtain ⟨answer, s₁, rest, happly, hrun⟩ := run_cons_eq_ok h
    exact ih hrun hcs (hkeep hc hs happly)

theorem sound_induct {P : Simulation ε ρ → Prop}
    (hkeep : ∀ {s c answer s'}, s.Sound → P s → s.apply c = .ok (answer, s') → P s') (hs : s.Sound) {cs : List Command}
    {answers : List Answer} (hrun : s.run cs = .ok (answers, s')) (h : P s) : P s' := by
  have hkeep' : ∀ {s c answer s'}, True → s.Sound ∧ P s → s.apply c = .ok (answer, s') → s'.Sound ∧ P s' := by
    rintro s c answer s' - ⟨hs, h⟩ happly
    obtain ⟨as, htrace, -, -⟩ := apply_actions hs happly
    exact ⟨htrace.sound hs, hkeep hs h happly⟩
  exact (run_induct hkeep' hrun (fun _ _ => trivial) ⟨hs, h⟩).2

/-- A run is the trace of its commands. -/
theorem run_trace (hs : s.Sound) {cs : List Command} {answers : List Answer}
    (h : s.run cs = .ok (answers, s')) : ∃ as, Trace s as s' ∧
      as.filterMap Action.sent? = s.collect sends cs ∧ ∀ a ∈ as, ∃ c ∈ cs, a.Within c := by
  induction cs generalizing s answers with
  | nil =>
    cases h
    exact ⟨[], .nil, rfl, by simp⟩
  | cons c cs ih =>
    obtain ⟨answer, s₁, rest, happly, hrun⟩ := run_cons_eq_ok h
    obtain ⟨as, htrace, hsends, has⟩ := apply_actions hs happly
    obtain ⟨bs, htrace', hsends', hbs⟩ := ih (htrace.sound hs) hrun
    refine ⟨as ++ bs, htrace.append htrace', ?_, ?_⟩
    · rw [List.filterMap_append, hsends, hsends', collect, happly]
    · intro a ha
      rcases List.mem_append.1 ha with ha | ha
      · exact ⟨c, List.mem_cons_self, has a ha⟩
      · obtain ⟨c', hc', hwithin⟩ := hbs a ha
        exact ⟨c', List.mem_cons_of_mem _ hc', hwithin⟩

end

def soloRecorder : Simulation Engine Random.Stream :=
  start default [.recording (.initial ⟨[]⟩)]

/-- Delays about a millisecond, from a fixed seed. -/
def jittery : Config :=
  { Config.default with latency := (Duration.ofNanos? (10 ^ 6)).getD .zero, seed := some 7 }

end Simulation

end VirtualMesh

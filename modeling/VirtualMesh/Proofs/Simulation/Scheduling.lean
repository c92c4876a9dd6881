import VirtualMesh.Proofs.Scheduler.Stepping
import VirtualMesh.Proofs.Simulation.Ticks

/-!
# What a call puts into the queue

A message sent and an update of an open peer each put one task into the queue, for the instant at which the delay or
the interval has passed. Near the end of the time line there may be no such instant. A message cannot be sent then,
while the update goes through and says that it is armed although it leaves nothing in the queue.
-/

namespace VirtualMesh

theorem Instant.exists_add? {t : Instant} {d : Duration} (h : t.nanos + d.nanos < 2 ^ 63 * 10 ^ 9) :
    ∃ u, t.add? d = some u := by
  have hge := t.ge
  exact ⟨⟨t.nanos + d.nanos, by omega, h⟩, add?_eq_some.2 rfl⟩

theorem Config.tick_le {c : Config} (h : c.validate = .ok ()) : c.tick.nanos ≤ maxTick.nanos := by
  have hnone := Config.flaw?_eq_none h
  unfold flaw? at hnone
  split at hnone
  · cases hnone
  · split at hnone
    · cases hnone
    · split at hnone
      · cases hnone
      · omega

/-- The delay that the next message through the peer takes. -/
def Peer.nextDelay {ρ : Type} [NormalSource ρ] (peer : Peer) (source : ρ) : Delay :=
  peer.recorded (peer.latency.sample source).1

namespace Simulation

variable {ε ρ : Type}

/-- One task more is in the queue, to run at `t`, and no time has passed. -/
structure Gains (s : Simulation ε ρ) (t : Instant) (task : Task) (s' : Simulation ε ρ) : Prop where
  clock : s'.clock = s.clock
  queue : s'.queue.Perm (⟨t, s.submissions, task⟩ :: s.queue)
  submitted : s'.submitted = s.submitted ++ [(s.clock, ⟨t, s.submissions, task⟩)]
  fired : s'.fired = s.fired

theorem gains_put (s : Simulation ε ρ) (t : Instant) (task : Task) (w : World ε ρ) :
    s.Gains t task (Machine.put ⟨t, task⟩ (s.withWorld w)) where
  clock := rfl
  queue := Machine.insert_perm _ _
  submitted := by rw [Machine.submitted_put, Machine.submitted_withWorld]; rfl
  fired := by rw [Machine.fired_put, Machine.fired_withWorld]

section
variable [NormalSource ρ] {s : Simulation ε ρ} {p : Nat} {peer : Peer} {source : ρ} {t : Instant}

theorem send_gains (hp : s.world.peers[p]? = some peer) (hsource : s.world.sources[peer.source]? = some source)
    (ht : s.clock.add? (peer.nextDelay source).clamped = some t) (payload : Bytes) :
    ∃ s', s.send p payload = .ok s' ∧ s.Gains t (.delivery p payload (peer.nextDelay source)) s' := by
  unfold Peer.nextDelay at ht
  rw [send_eq hp hsource, ht]
  exact ⟨_, rfl, gains_put ..⟩

theorem send_eq_error (hp : s.world.peers[p]? = some peer) (hsource : s.world.sources[peer.source]? = some source)
    (ht : s.clock.add? (peer.nextDelay source).clamped = none) (payload : Bytes) :
    s.send p payload = .error .instantOverflow := by
  unfold Peer.nextDelay at ht
  rw [send_eq hp hsource, ht]

end

variable [NormalSource ρ] [Consensus ε] {s : Simulation ε ρ} {p : Nat} {peer : Peer}

omit [NormalSource ρ] in
/-- An update of an open peer reaches its engine once, and is armed if the next tick has an instant. -/
theorem update_cases {x : ε} (hp : s.world.peers[p]? = some peer) (hx : s.world.engines[peer.engine]? = some x)
    (hopen : peer.isClosed = false) :
    (s.update p).1 = .armed ∧ (s.update p).2.world = s.world.setEngine peer.engine (Consensus.update x).1 ∧
    (∀ t, s.clock.add? peer.config.tick = some t → s.Gains t (.tick p) (s.update p).2) ∧
    (s.clock.add? peer.config.tick = none →
      (s.update p).2 = s.withWorld (s.world.setEngine peer.engine (Consensus.update x).1)) := by
  have hupdate : s.update p = (.armed, Machine.putAll (Ticker.arm peer.config.tick (.tick p) s.clock)
      (s.withWorld (s.world.setEngine peer.engine (Consensus.update x).1))) := by
    rw [update, World.update_eq hp hx hopen]
    rfl
  rw [hupdate]
  refine ⟨rfl, Machine.world_putAll .., fun t ht => ?_, fun hnone => ?_⟩
  · simp only [Ticker.arm, ht]
    exact gains_put ..
  · simp only [Ticker.arm, hnone]
    rfl

/-- In every state that commands lead to, a message sent through a peer adds one task to the queue, after the delay
drawn for it, and the update of an open peer updates its engine once and adds one task, after the interval. If the
clock has no room for the delay, the message cannot be sent; if it has none for the interval, the update is armed
without a task. There is room for both up to 2⁶³ nanoseconds before the end of the time line. -/
theorem calls_scheduled {clock : Instant} {engines : List ε} {commands : List Command} {answers : List Answer}
    (hrun : (start clock engines).run commands = .ok (answers, s)) (hp : s.world.peers[p]? = some peer) :
    ∃ source x, s.world.sources[peer.source]? = some source ∧ s.world.engines[peer.engine]? = some x ∧
      (∀ payload t, s.clock.add? (peer.nextDelay source).clamped = some t →
        ∃ s', s.send p payload = .ok s' ∧ s.Gains t (.delivery p payload (peer.nextDelay source)) s') ∧
      (∀ payload, s.clock.add? (peer.nextDelay source).clamped = none →
        s.send p payload = .error .instantOverflow) ∧
      (peer.isClosed = false →
        (s.update p).1 = .armed ∧ (s.update p).2.world = s.world.setEngine peer.engine (Consensus.update x).1 ∧
        (∀ t, s.clock.add? peer.config.tick = some t → s.Gains t (.tick p) (s.update p).2) ∧
        (s.clock.add? peer.config.tick = none →
          (s.update p).2 = s.withWorld (s.world.setEngine peer.engine (Consensus.update x).1))) ∧
      (s.clock.nanos + 2 ^ 63 ≤ 2 ^ 63 * 10 ^ 9 →
        (∃ t, s.clock.add? (peer.nextDelay source).clamped = some t) ∧ ∃ t, s.clock.add? peer.config.tick = some t) := by
  have hs := sound_of_run hrun
  have hmem := List.mem_of_getElem? hp
  obtain ⟨source, hsource⟩ : ∃ source, s.world.sources[peer.source]? = some source :=
    ⟨_, List.getElem?_eq_getElem (hs.world.sources peer hmem)⟩
  obtain ⟨x, hx⟩ : ∃ x, s.world.engines[peer.engine]? = some x :=
    ⟨_, List.getElem?_eq_getElem (hs.world.engines peer hmem)⟩
  refine ⟨source, x, hsource, hx, fun payload t ht => send_gains hp hsource ht payload,
    fun payload ht => send_eq_error hp hsource ht payload, update_cases hp hx, fun hroom => ⟨?_, ?_⟩⟩
  · refine Instant.exists_add? ?_
    have hlt := (peer.nextDelay source).lt
    simp only [Delay.clamped]
    omega
  · refine Instant.exists_add? ?_
    have hle := Config.tick_le (hs.world.valid peer hmem)
    simp only [Config.maxTick] at hle
    omega

theorem calls_scheduled_early : ∃ answers s, soloRecorder.run [.newPeer 0 jittery none] = .ok (answers, s) ∧
    (∃ s' t delay, s.send 0 [1] = .ok s' ∧ s.Gains t (.delivery 0 [1] delay) s') ∧
    (s.update 0).1 = .armed ∧ ∃ t, t.nanos = 20 * 10 ^ 6 ∧ s.Gains t (.tick 0) (s.update 0).2 := by
  obtain ⟨answers, s, peer, hrun, hfind⟩ := exists_of_run soloRecorder [.newPeer 0 jittery none]
    (fun s => (s.world.peers[0]?).filter fun peer =>
      peer.isClosed = false ∧ peer.config.tick.nanos = 20 * 10 ^ 6 ∧ s.clock.nanos = 0) (by decide +kernel)
  obtain ⟨hp, hcheck⟩ := Option.filter_eq_some_iff.1 hfind
  obtain ⟨hopen, htick, hclock⟩ := of_decide_eq_true hcheck
  obtain ⟨source, x, -, -, hsend, -, hupdate, hroom⟩ := calls_scheduled hrun hp
  obtain ⟨⟨t, ht⟩, u, hu⟩ := hroom (by rw [hclock]; decide)
  obtain ⟨s', hsent, hgains⟩ := hsend [1] t ht
  obtain ⟨harmed, -, htask, -⟩ := hupdate hopen
  have hnanos := Instant.nanos_of_add? hu
  rw [hclock, htick] at hnanos
  exact ⟨answers, s, hrun, ⟨s', t, _, hsent, hgains⟩, harmed, u, hnanos, htask u hu⟩

/-- At the end of the time line no message can be sent through an open peer, and its update is armed without a tick. -/
theorem armed_without_tick : ∃ answers s,
    (start .last [.recording (.initial ⟨[]⟩)] : Simulation Engine Random.Stream).run [.newPeer 0 jittery none] =
      .ok (answers, s) ∧
    s.world.isClosed 0 = false ∧ s.send 0 [1] = .error .instantOverflow ∧ (s.update 0).1 = .armed ∧
      (s.update 0).2.queue.length = 0 := by
  obtain ⟨answers, s, _, hrun, hfind⟩ := exists_of_run
    (start .last [.recording (.initial ⟨[]⟩)] : Simulation Engine Random.Stream) [.newPeer 0 jittery none]
    (fun s => match s.send 0 [1] with
      | .error .instantOverflow => if s.world.isClosed 0 = false ∧ (s.update 0).1 = .armed ∧
          (s.update 0).2.queue.length = 0 then some () else none
      | _ => none) (by decide +kernel)
  split at hfind
  · rename_i hsend
    obtain ⟨⟨hopen, harmed, hqueue⟩, -⟩ := Option.ite_none_right_eq_some.1 hfind
    exact ⟨answers, s, hrun, hopen, hsend, harmed, hqueue⟩
  · cases hfind

end Simulation

end VirtualMesh

import VirtualMesh.Proofs.Scenario.Interleaving

/-!
# The run of a scenario

A scenario starts on a mesh through which nothing has been sent. Its own run is one of the interleavings: no task
runs before the time to settle has passed, and then those that are due run in firing order.
-/

namespace VirtualMesh

variable {ε ρ : Type}

namespace Machine

variable {τ ο σ : Type} {m : Machine τ ο σ} {t : Instant}

theorem countP_putAll_of_late {ss : List (Submission τ)} (h : ∀ y ∈ ss, ¬y.fireAt ≤ t) :
    (putAll ss m).queue.countP (fun e => e.fireAt ≤ t) = m.queue.countP fun e => e.fireAt ≤ t := by
  induction ss generalizing m with
  | nil => rfl
  | cons y ss ih =>
    obtain ⟨hy, hss⟩ := List.forall_mem_cons.1 h
    rw [putAll_cons, ih hss, queue_put, (insert_perm _ _).countP_eq]
    exact List.countP_cons_of_neg fun hdue => hy (of_decide_eq_true hdue)

theorem isDue_of_countP_eq_zero (h : m.queue.countP (fun e => e.fireAt ≤ t) = 0) : m.isDue t = false := by
  unfold isDue
  split
  · rfl
  · rename_i e rest hq
    rw [hq] at h
    exact decide_eq_false (by simpa using List.countP_eq_zero.1 h e List.mem_cons_self)

end Machine

theorem World.countP_le_allowance (t : Instant) (s : Simulation ε ρ) :
    s.queue.countP (fun e => e.fireAt ≤ t) ≤ World.allowance t s := by
  have hshare : ∀ e : Entry Task, 1 ≤ s.world.share t e.fireAt e.task := by
    intro e
    unfold share
    split
    · exact Nat.le_refl 1
    · split
      · exact Nat.le_refl 1
      · exact Nat.le_add_left 1 _
  have hsum := List.length_le_sum_of_one_le ((s.queue.filter fun e => e.fireAt ≤ t).map
    fun e => s.world.share t e.fireAt e.task) fun n hn => by
      obtain ⟨e, -, rfl⟩ := List.mem_map.1 hn
      exact hshare e
  rwa [List.length_map, ← List.countP_eq_length_filter] at hsum

namespace Scenario

variable {x : Scenario} {m : Mesh} {cs : List Call} {s : Simulation ε ρ}

/-! ## The start -/

theorem validate_config (x : Scenario) : x.config.validate = .ok () := by
  have hflaw : x.config.flaw? = none :=
    Option.isNone_iff_eq_none.1 (show Config.default.flaw?.isNone = true by decide +kernel)
  rw [Config.validate, hflaw]

theorem length_payload (x : Scenario) (round : Nat) : (x.payload round).length = x.payloadSize := by
  unfold payload
  split
  · rename_i hsize
    exact hsize.symm
  · rename_i n hsize
    rw [List.length_cons, List.length_replicate, hsize]

theorem mem_traffic {y : Nat × Bytes} (hy : y ∈ x.traffic m) : y.1 ∈ m.peers ∧ y.2.length = x.payloadSize := by
  obtain ⟨round, -, hy⟩ := List.mem_flatMap.1 hy
  obtain ⟨p, hp, rfl⟩ := List.mem_map.1 hy
  exact ⟨hp, x.length_payload round⟩

theorem countP_traffic (x : Scenario) (m : Mesh) (g : Nat → Bool) :
    (x.traffic m).countP (fun y => g y.1) = x.rounds * m.peers.countP g := by
  have hround : (fun round => (m.peers.map (·, x.payload round)).countP fun y => g y.1) = fun _ => m.peers.countP g := by
    funext round
    rw [List.countP_map]
    rfl
  rw [traffic, List.countP_flatMap]
  show ((List.range x.rounds).map fun round => (m.peers.map (·, x.payload round)).countP fun y => g y.1).sum = _
  rw [hround, List.map_const', List.sum_replicate, List.length_range, smul_eq_mul]

/-- How many calls send something, through some of the peers. -/
theorem countP_calls {f : Call → Bool} {g : Nat → Bool} (hsend : ∀ p payload, f (.send p payload) = g p)
    (hother : ∀ c, c.target? = none → f c = false) (x : Scenario) (m : Mesh) :
    (x.calls m).countP f = x.rounds * m.peers.countP g := by
  have hupdate : (m.peers.map Call.update).countP f = 0 := by
    rw [List.countP_map]
    exact List.countP_eq_zero.2 fun p _ => by simp [hother (.update p) rfl]
  have hclose : (m.peers.map Call.close).countP f = 0 := by
    rw [List.countP_map]
    exact List.countP_eq_zero.2 fun p _ => by simp [hother (.close p) rfl]
  have hsends : ((x.traffic m).map fun y => Call.send y.1 y.2).countP f = (x.traffic m).countP fun y => g y.1 := by
    rw [List.countP_map]
    exact List.countP_congr fun y _ => by simp [hsend]
  rw [calls, List.countP_append, List.countP_append, hupdate, hsends, hclose, countP_traffic]
  omega

theorem countP_calls_sends (x : Scenario) (m : Mesh) :
    (x.calls m).countP (fun c => c.target?.isSome) = m.peers.length * x.rounds := by
  rw [countP_calls (g := fun _ => true) (fun _ _ => rfl) (fun c hc => by rw [hc]; rfl), List.countP_true, Nat.mul_comm]

theorem countP_calls_target (x : Scenario) {p : Nat} (hnodup : m.peers.Nodup) (hp : p ∈ m.peers) :
    (x.calls m).countP (fun c => c.target? = some p) = x.rounds := by
  rw [countP_calls (g := fun q => q = p) (fun q _ => by simp [Call.target?]) (fun c hc => by simp [hc])]
  have hone := List.count_eq_one_of_mem hnodup hp
  rw [List.count_eq_countP] at hone
  have hsame : m.peers.countP (fun q => q = p) = 1 := hone ▸ List.countP_congr fun q _ => by simp
  rw [hsame, Nat.mul_one]

/-- All peers are new, and all of them are in the mesh. -/
theorem OnTrack.start {w : World ε ρ} (hfresh : ∀ peer ∈ w.peers, ∃ engine, peer = .fresh engine 0 x.config)
    (hsources : 0 < w.sources.length) (hsize : w.peers.length = x.engineCount * (x.engineCount - 1))
    (hm : m.peers = List.range w.peers.length) (clock : Instant) :
    OnTrack x (x.calls m) (Machine.startingAt clock w) := by
  constructor
  case size => exact hsize
  case origins =>
    intro o ho
    obtain ⟨peer, hpeer, rfl⟩ := List.mem_map.1 ho
    obtain ⟨engine, rfl⟩ := hfresh peer hpeer
    exact ⟨rfl, hsources⟩
  case underway => exact fun y hy => nomatch hy
  case unsent =>
    intro p payload hmem
    obtain ⟨y, hy, heq⟩ : ∃ y ∈ x.traffic m, Call.send y.1 y.2 = .send p payload := by simpa [calls] using hmem
    cases heq
    obtain ⟨hp, hsize⟩ := mem_traffic hy
    exact ⟨List.mem_range.1 (hm ▸ hp), hsize⟩
  case counted =>
    intro p stats hp
    obtain ⟨peer, hpeer, rfl⟩ : ∃ peer, w.peers[p]? = some peer ∧ peer.stats = stats := by
      simpa [World.stats, Machine.startingAt] using hp
    obtain ⟨engine, rfl⟩ := hfresh peer (List.mem_of_getElem? hpeer)
    have hmem : p ∈ m.peers := hm ▸ List.mem_range.2 (List.getElem?_eq_some_iff.1 hpeer).1
    rw [countP_calls_target x (hm ▸ List.nodup_range) hmem]
    exact ⟨PeerStats.even_empty _, Nat.zero_add _⟩
  case sent =>
    show 0 + _ = _
    rw [countP_calls_sends, hm, List.length_range, hsize, Nat.zero_add]

/-- The mesh of a scenario, through which nothing has been sent. -/
theorem exists_mesh [NormalSource ρ] (x : Scenario) (h : 2 ≤ x.engineCount) {engines : List ε}
    (hengines : engines.length = x.engineCount) : ∃ (w : World ε ρ) (m : Mesh),
      (World.ofEngines engines).buildMesh (List.range engines.length) x.config = .ok w ∧ w.mesh = some m ∧
        m.size = x.engineCount ∧ m.peers = List.range (x.engineCount * (x.engineCount - 1)) ∧
          ∀ clock, OnTrack x (x.calls m) (Machine.startingAt clock w) := by
  rw [hengines]
  obtain ⟨w, hw⟩ : ∃ w : World ε ρ,
      (World.ofEngines engines).buildMesh (List.range x.engineCount) x.config = .ok w := by
    have hsize : ¬(List.range x.engineCount).length < Mesh.minSize := by
      rw [List.length_range]
      exact Nat.not_lt.2 h
    simp only [World.buildMesh, if_neg hsize, validate_config]
    exact ⟨_, rfl⟩
  obtain ⟨-, heq⟩ := Simulation.buildMesh_eq_ok hw
  have hpeers : w.peers = Simulation.meshPeers (List.range x.engineCount) 0 x.config := by
    rw [heq]
    rfl
  have hlength : w.peers.length = x.engineCount * (x.engineCount - 1) := by
    rw [hpeers, Simulation.meshPeers, List.length_map, Mesh.length_targets, List.length_range]
  have hm : (Mesh.number (List.range x.engineCount) 0).peers = List.range (x.engineCount * (x.engineCount - 1)) := by
    rw [Mesh.peers_number, List.length_range, List.range_eq_range']
  refine ⟨w, _, hw, by rw [heq]; rfl, by simp [Mesh.size, Mesh.number], hm,
    OnTrack.start ?_ ?_ hlength (by rw [hm, hlength])⟩
  · intro peer hpeer
    rw [hpeers] at hpeer
    obtain ⟨y, -, rfl⟩ := List.mem_map.1 hpeer
    exact ⟨_, rfl⟩
  · rw [heq]
    exact Nat.zero_lt_one

/-! ## One way through it -/

section
variable [NormalSource ρ] [Consensus ε] {s' : Simulation ε ρ}

theorem reaches_updateAll (cs : List Call) (s : Simulation ε ρ) (ps : List Nat) :
    Reaches (ps.map .update ++ cs, s) (cs, s.updateAll ps) := by
  induction ps generalizing s with
  | nil => exact .refl
  | cons p ps ih => exact .head (.call rfl) (ih (s.update p).2)

theorem reaches_closeAll (cs : List Call) (s : Simulation ε ρ) (ps : List Nat) :
    Reaches (ps.map .close ++ cs, s) (cs, s.withWorld (s.world.closeAll ps).2) := by
  induction ps generalizing s with
  | nil => exact .refl
  | cons p ps ih => exact .head (.call rfl) (ih (s.withWorld (s.world.close p).2))

omit [NormalSource ρ] in
theorem clock_updateAll (s : Simulation ε ρ) (ps : List Nat) : (s.updateAll ps).clock = s.clock := by
  induction ps generalizing s with
  | nil => rfl
  | cons p ps ih => exact (ih (s.update p).2).trans (Machine.clock_putAll ..)

theorem OnTrack.exists_sendAll {ms : List (Nat × Bytes)} (h : OnTrack x (ms.map (fun y => .send y.1 y.2) ++ cs) s)
    (hclock : (s.clock.add? Delay.top.clamped).isSome = true) : ∃ s', s.sendAll ms = .ok s' ∧ s'.clock = s.clock ∧
      Reaches (ms.map (fun y => .send y.1 y.2) ++ cs, s) (cs, s') := by
  induction ms generalizing s with
  | nil => exact ⟨s, rfl, rfl, .refl⟩
  | cons y ms ih =>
    obtain ⟨s₁, hsend, hclock₁⟩ := h.exists_perform hclock
    obtain ⟨s', hrest, hclock', hreaches⟩ := ih (h.call hsend) (hclock₁ ▸ hclock)
    have hsendAll : s.sendAll (y :: ms) = s₁.sendAll ms := by
      rw [Simulation.sendAll, List.foldlM_cons, show s.send y.1 y.2 = .ok s₁ from hsend]
      rfl
    exact ⟨s', hsendAll.trans hrest, hclock'.trans hclock₁, .head (.call hsend) hreaches⟩

omit [NormalSource ρ] in
/-- A task that runs when it is due submits nothing that is due at once. -/
theorem OnTrack.late_of_fire (h : OnTrack x cs s) {e : Entry Task} {rest : List (Entry Task)} (hq : s.queue = e :: rest)
    (hdue : e.fireAt ≤ s.clock) (hfire : s.fire World.handler e rest = .ok s') : s'.clock = s.clock ∧
      s'.queue.countP (fun e => e.fireAt ≤ s.clock) + 1 = s.queue.countP fun e => e.fireAt ≤ s.clock := by
  obtain ⟨r, hr, rfl⟩ := Machine.fire_eq_ok.1 hfire
  have hclock : max s.clock e.fireAt = s.clock := by
    ext
    rw [Instant.nanos_max]
    exact Int.max_eq_left hdue
  rw [hclock] at hr
  have hlate : ∀ y ∈ r.submissions, ¬y.fireAt ≤ s.clock := by
    intro y hy
    cases ht : e.task with
    | tick p =>
      rw [ht] at hr
      obtain ⟨-, peer, hpeer, hat⟩ := (World.handler_of_tick hr).2.2 y hy
      have htick : peer.config.tick.nanos = 20 * 10 ^ 6 := by rw [(h.config_eq hpeer).1]; rfl
      rw [Instant.le_def]
      omega
    | delivery p payload delay =>
      rw [ht] at hr
      have hperm := Simulation.underway_of_delivery hq ht
      obtain ⟨peer, hpeer, -, -⟩ := h.exists_receiver (hperm ▸ List.mem_cons_self)
      obtain ⟨-, -, hnone, -⟩ := World.handler_of_delivery hpeer (h.drops_eq_false hpeer) hr
      rw [hnone] at hy
      cases hy
  refine ⟨by rw [Machine.clock_putAll, Machine.clock_popped, hclock], ?_⟩
  rw [Machine.countP_putAll_of_late hlate, Machine.queue_popped, hq, List.countP_cons_of_pos (by simpa using hdue)]

theorem OnTrack.exists_runWhile (h : OnTrack x cs s) (hmessages : x.rounds < 2 ^ 64)
    (hbytes : x.rounds * x.payloadSize < 2 ^ 64) {t : Instant} (hclock : s.clock = t) {limit : Nat} (ran : Nat)
    (hlimit : s.queue.countP (fun e => e.fireAt ≤ t) ≤ limit) : ∃ n s',
      s.runWhile World.handler (fun u => u ≤ t) limit ran = .ok (n, s') ∧ s'.isDue t = false ∧
        Reaches (cs, s) (cs, s') := by
  -- the clock stands at the deadline, so every task that runs leaves one less that is due
  induction limit generalizing s ran with
  | zero => exact ⟨ran, s, rfl, Machine.isDue_of_countP_eq_zero (Nat.le_zero.1 hlimit), .refl⟩
  | succ limit ih =>
    simp only [Machine.runWhile]
    cases hq : s.queue with
    | nil => exact ⟨ran, s, rfl, by rw [Machine.isDue, hq], .refl⟩
    | cons e rest =>
      by_cases hdue : e.fireAt ≤ t
      · have hfront : s.queue = [] ++ e :: rest := hq
        obtain ⟨s₁, hfire⟩ := h.exists_fire hmessages hbytes hfront
        obtain ⟨hclock₁, hcount⟩ := h.late_of_fire hq (hclock ▸ hdue) hfire
        obtain ⟨n, s', hrun, hdone, hreaches⟩ := ih (h.fire hfront hfire) (hclock₁.trans hclock) (ran + 1)
          (by rw [hclock] at hcount; omega)
        have hmove : Move (cs, s) (cs, s₁) := .task hfront (hclock ▸ hdue) hfire
        simp only [decide_eq_true hdue, if_true, show s.fire World.handler e rest = .ok s₁ from hfire]
        exact ⟨n, s', hrun, hdone, .head hmove hreaches⟩
      · simp only [decide_eq_false hdue]
        exact ⟨ran, s, rfl, by rw [Machine.isDue, hq]; exact decide_eq_false hdue, .refl⟩

theorem OnTrack.exists_runUntil (h : OnTrack x cs s) (hmessages : x.rounds < 2 ^ 64)
    (hbytes : x.rounds * x.payloadSize < 2 ^ 64) {t : Instant} (hclock : s.clock = t) : ∃ n s',
      World.dynamics.runUntil t s = .ok (n, s') ∧ Reaches (cs, s) (cs, s') := by
  obtain ⟨n, s', hrun, hdone, hreaches⟩ := h.exists_runWhile hmessages hbytes hclock 0 (World.countP_le_allowance t s)
  refine ⟨n, s'.moveTo t, ?_, hreaches.tail (.wait t)⟩
  show s.runUntil World.handler (World.allowance t s) t = _
  simp only [Machine.runUntil, hrun, hdone]
  rfl

end

theorem max_start_settled (x : Scenario) : max start x.settled = x.settled := by
  have hle : start.nanos ≤ x.settled.nanos := by
    unfold settled
    cases h : start.add? x.settle with
    | none => exact show start.nanos ≤ Instant.last.nanos by decide
    | some t =>
      have hnanos := Instant.nanos_of_add? h
      show start.nanos ≤ t.nanos
      omega
  ext
  rw [Instant.nanos_max]
  exact Int.max_eq_right hle

/-- What a scenario does by itself is one way in which its calls and tasks may follow one another. -/
theorem OnTrack.exists_play [NormalSource ρ] {w : World RecordingEngine ρ}
    (h : OnTrack x (x.calls m) (Machine.startingAt Scenario.start w)) (hmessages : x.rounds < 2 ^ 64)
    (hbytes : x.rounds * x.payloadSize < 2 ^ 64) : ∃ s, x.play w m = .ok s ∧
      Reaches (x.calls m, Machine.startingAt Scenario.start w) ([], s) := by
  let s₀ : Simulation RecordingEngine ρ := Machine.startingAt Scenario.start w
  let s₁ := s₀.updateAll m.peers
  let closes := m.peers.map Call.close
  have hcalls : x.calls m = m.peers.map .update ++ ((x.traffic m).map (fun y => .send y.1 y.2) ++ closes) :=
    List.append_assoc ..
  have hupdates := reaches_updateAll ((x.traffic m).map (fun y => .send y.1 y.2) ++ closes) s₀ m.peers
  rw [← hcalls] at hupdates
  have h₁ := h.reaches hupdates
  have hclock₁ : s₁.clock = Scenario.start := clock_updateAll s₀ m.peers
  obtain ⟨s₂, hsend, hclock₂, hsends⟩ := h₁.exists_sendAll (hclock₁ ▸ (by decide))
  have hclock₃ : (s₂.moveTo x.settled).clock = x.settled := by
    rw [Machine.clock_moveTo, hclock₂, hclock₁, max_start_settled]
  obtain ⟨n, s₄, hrun, hsettle⟩ := ((h₁.reaches hsends).moveTo x.settled).exists_runUntil hmessages hbytes hclock₃
  have hcloses := reaches_closeAll [] s₄ m.peers
  rw [List.append_nil] at hcloses
  refine ⟨s₄.withWorld (s₄.world.closeAll m.peers).2, ?_, ?_⟩
  · simp only [play, bind, Except.bind]
    rw [show (s₀.updateAll m.peers).sendAll (x.traffic m) = .ok s₂ from hsend]
    simp only [hrun]
    rfl
  · exact hupdates.trans (hsends.trans (.head (.wait x.settled) (hsettle.trans hcloses)))

end Scenario

end VirtualMesh

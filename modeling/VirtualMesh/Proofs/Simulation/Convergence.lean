import VirtualMesh.Proofs.Simulation.Flooding

/-!
# Convergence of gossip

A mesh on all engines has a peer from each of them to each other one. If every engine holds links to
the peers that lead from it, it is connected, and then gossip over the mesh converges: once nothing is
under way, all engines are at the greatest height that was proposed.
-/

namespace VirtualMesh

/-- Commands that propose and send nothing, take away no link and add no peer that drops messages. A
mesh is built on all engines. -/
def Command.isSilent : Command → Bool
  | .send .. | .propose .. | .receiveAt .. | .proposeAt .. | .unlink .. | .broadcast .. => false
  | .newPeer _ config _ => config.onClose = .deliver
  | .buildMesh config engines => engines.isNone && config.onClose = .deliver
  | _ => true

def Command.proposed? : Command → Option State
  | .propose _ state | .proposeAt _ state => some state
  | _ => none

def Command.isGossip (c : Command) : Bool := c.isSilent || c.proposed?.isSome

theorem Action.Within.gossips {c : Command} {a : Action} (h : a.Within c) (hc : c.isSilent = true)
    (hsent : a.sent? = none) (P : List Proposal) : a.Gossips P := by
  have hconfig : ∀ config, c.config? = some config → config.onClose = .deliver := by
    intro config hconfig
    cases c <;> simp_all [Command.config?, Command.isSilent]
  constructor
  case added =>
    intro p hp
    cases a with
    | addPeers peers => exact hconfig _ (h p hp)
    | _ => cases hp
  case sent =>
    intro m hm
    rw [hsent] at hm
    cases hm
  case receive =>
    rintro i message rfl
    obtain rfl : c = .receiveAt i message := h
    cases hc
  case propose =>
    rintro i state rfl
    obtain rfl | ⟨handle, rfl⟩ : c = .proposeAt i state ∨ ∃ handle, c = .propose handle state := h
    · cases hc
    · cases hc
  case unlink =>
    rintro i rfl
    obtain ⟨count, rfl⟩ : ∃ count, c = .unlink i count := h
    cases hc

/-- Every mesh of this world has a peer from each engine to each other one. -/
def World.Spans {ε ρ : Type} (w : World ε ρ) : Prop :=
  ∀ m, w.mesh = some m → ∀ i j, i < w.engines.length → j < w.engines.length → j ≠ i →
    ∃ row p, m.rows[i]? = some row ∧ (j, p) ∈ row ∧ w.leadsTo j p = true

theorem World.spans_buildMesh {ε ρ : Type} [NormalSource ρ] {w w' : World ε ρ} {config : Config}
    (h : w.buildMesh (List.range w.engines.length) config = .ok w') : w'.Spans := by
  obtain ⟨-, rfl⟩ := Simulation.buildMesh_eq_ok h
  intro m hm i j hi hj hne
  cases hm
  change i < w.engines.length at hi
  change j < w.engines.length at hj
  obtain ⟨row, n, hrow, hmem, htarget⟩ := Mesh.exists_target_of_row w.peers.length (by simpa using hi)
    (List.getElem?_range hj) hne
  refine ⟨row, _, hrow, hmem, ?_⟩
  have hpeer : (w.peers ++ Simulation.meshPeers (List.range w.engines.length) w.sources.length config)[
      w.peers.length + n]? = some (.fresh j w.sources.length config) := by
    rw [List.getElem?_append_right (Nat.le_add_right ..), Nat.add_sub_cancel_left, Simulation.meshPeers,
      List.getElem?_map, htarget]
    rfl
  simp [leadsTo, hpeer, Peer.fresh]

namespace Simulation

section
variable {ε ρ : Type} [NormalSource ρ] [Consensus ε] {s s' : Simulation ε ρ} {a : Action} {c : Command}

theorem Step.spans (hs : s.Sound) (h : s.world.Spans) (ha : ∀ m, a ≠ .setMesh (some m))
    (hstep : Step s a s') : s'.world.Spans := by
  intro m hm i j hi hj hne
  rw [hstep.length_engines] at hi hj
  have hmesh : s.world.mesh = some m := by
    rcases hstep.mesh_eq with hmesh | ⟨mesh, rfl, hmesh⟩
    · rw [← hmesh, hm]
    · rw [hmesh] at hm
      exact absurd (congrArg Action.setMesh hm) (ha m)
  obtain ⟨row, p, hrow, hp, hleads⟩ := h m hmesh i j hi hj hne
  refine ⟨row, p, hrow, hp, ?_⟩
  rwa [hstep.leadsTo_eq (hs.world.mesh m hmesh p (Mesh.mem_peers.2 ⟨i, row, hrow, List.mem_map_of_mem hp⟩))]

theorem spans_of_apply (hs : s.Sound) (h : s.world.Spans) (hc : c.isSilent = true) {answer : Answer}
    (happly : s.apply c = .ok (answer, s')) : s'.world.Spans := by
  by_cases hbuild : ∃ config engines, c = .buildMesh config engines
  · obtain ⟨config, engines, rfl⟩ := hbuild
    obtain rfl : engines = none := by
      simp only [Command.isSilent, Bool.and_eq_true, Option.isNone_iff_eq_none] at hc
      exact hc.1
    simp only [apply, bind_eq_ok, Option.getD_none] at happly
    obtain ⟨es, -, happly⟩ := happly
    split at happly
    · rw [pure_eq_ok] at happly
      cases happly
      exact h
    · rename_i w hw
      rw [pure_eq_ok] at happly
      cases happly
      exact World.spans_buildMesh hw
  · -- any other command leaves the mesh alone or drops it
    obtain ⟨as, htrace, -, has⟩ := apply_actions hs happly
    have hkeep : ∀ {s : Simulation ε ρ} {a s₁}, a.Within c → s.Sound ∧ s.world.Spans → Step s a s₁ →
        s₁.Sound ∧ s₁.world.Spans := by
      intro s a s₁ ha hs hstep
      refine ⟨hstep.sound hs.1, hstep.spans hs.1 hs.2 ?_⟩
      rintro m rfl
      obtain hnone | hbuild' : some m = none ∨ ∃ config engines, c = .buildMesh config engines := ha
      · cases hnone
      · exact hbuild hbuild'
    exact (htrace.induct hkeep has ⟨hs, h⟩).2

end

section
variable {ρ : Type}

/-- Whether the engine at each place of the mesh has links that are there to all peers of its row. -/
def isWired (s : Simulation Engine ρ) : Bool :=
  s.world.mesh.any fun m => m.rows.zipIdx.all fun x => (s.gossipAt x.2).any fun e =>
    x.1.all fun y => s.world.links.any fun l => l.number ∈ e.links && l.peer = y.2

theorem connected_of_isWired {s : Simulation Engine ρ} (hspans : s.world.Spans) (h : s.isWired = true) :
    s.Connected := by
  intro i e hi j hj hne
  obtain ⟨m, hm, hrows⟩ := (Option.any_eq_true ..).1 h
  obtain ⟨row, p, hrow, hp, hleads⟩ := hspans m hm i j (lt_of_gossipAt hi) hj hne
  have hwired := List.all_eq_true.1 hrows (row, i) (List.mem_zipIdx_iff_getElem?.2 hrow)
  simp only [hi, Option.any_some] at hwired
  obtain ⟨l, hl, hlink⟩ := List.any_eq_true.1 (List.all_eq_true.1 hwired (j, p) hp)
  simp only [Bool.and_eq_true, decide_eq_true_eq] at hlink
  exact ⟨l, hl, hlink.1, hlink.2 ▸ hleads⟩

theorem gossiping_start (clock : Instant) (keys : List PublicKey) : Gossiping (ρ := ρ) [] []
    (start clock (keys.map fun k => .gossip (.initial k))) := by
  have hinitial : ∀ i e, gossipAt (ρ := ρ) (start clock (keys.map fun k => .gossip (.initial k))) i = some e →
      e.decided.height.value.toNat = 0 := by
    intro i e hi
    obtain ⟨k, -, heq⟩ := List.mem_map.1 (List.mem_of_getElem? (gossipAt_eq_some.1 hi))
    cases heq
    rfl
  constructor
  case dropsNothing => exact fun p hp => nomatch hp
  case engines =>
    intro i hi
    obtain ⟨k, -, heq⟩ := List.mem_map.1 (List.getElem_mem hi)
    exact ⟨.initial k, gossipAt_eq_some.2 (heq ▸ List.getElem?_eq_getElem hi)⟩
  case proposers => exact fun x hx => nomatch hx
  case positive => exact fun x hx => nomatch hx
  case sent => exact fun y hy => nomatch hy
  case decided =>
    intro i e hi hpos
    have hzero := hinitial i e hi
    omega
  case own => exact fun x hx => nomatch hx
  case heard => exact fun y hy => nomatch hy
  case flooded => exact fun x hx => nomatch hx
  case solo => exact fun k _ e hk => ⟨rfl, hinitial k e hk⟩

end

section
variable {ρ : Type} [NormalSource ρ] {s s' : Simulation Engine ρ} {P : List Proposal} {c : Command}

theorem silent_trace (hs : s.Sound) (hc : c.isSilent = true) {answer : Answer}
    (happly : s.apply c = .ok (answer, s')) (P : List Proposal) :
    ∃ as, Trace s as s' ∧ ∀ a ∈ as, a.Gossips P := by
  obtain ⟨as, htrace, hsends, has⟩ := apply_actions hs happly
  have hnone : s.sends c = [] := by
    cases c <;> first | rfl | cases hc
  rw [hnone, List.filterMap_eq_nil_iff] at hsends
  exact ⟨as, htrace, fun a ha => (has a ha).gossips hc (hsends a ha) P⟩

theorem gossiping_of_apply (hs : s.Sound) (h : s.Gossiping P P) (hconnected : s.Connected)
    (hc : c.isGossip = true) {answer : Answer} (happly : s.apply c = .ok (answer, s')) :
    (s.proposals c).map Proposal.state = c.proposed?.toList ∧
      s'.Gossiping (P ++ s.proposals c) (P ++ s.proposals c) ∧ s'.Connected := by
  by_cases hsilent : c.isSilent = true
  · obtain ⟨as, htrace, has⟩ := silent_trace hs hsilent happly P
    have hnone : s.proposals c = [] ∧ c.proposed? = none := by
      cases c <;> first | exact ⟨rfl, rfl⟩ | cases hsilent
    rw [hnone.1, hnone.2, List.append_nil]
    exact ⟨rfl, htrace.gossiping hs h has, htrace.connected hs h hconnected has⟩
  · cases c with
    | propose handle state =>
      simp only [apply, bind_eq_ok, require_eq_ok, attempt_eq_ok, pure_eq_ok] at happly
      obtain ⟨p, hp, peer, hpeer, s₁, hpropose, heq⟩ := happly
      cases heq
      have hi := hs.world.engines peer (List.mem_of_getElem? hpeer)
      obtain ⟨x, hx, -, rfl, h', hconnected'⟩ := gossiping_of_propose hs h hconnected hi hpropose
      have hproposals : s.proposals (.propose handle x.state) = [x] := by
        simp only [proposals, hp, Option.bind_some, hpeer, hx]
      rw [hproposals]
      exact ⟨rfl, h', hconnected'⟩
    | proposeAt i state =>
      simp only [apply, bind_eq_ok, require_eq_ok, attempt_eq_ok, pure_eq_ok] at happly
      obtain ⟨e, he, s₁, hpropose, heq⟩ := happly
      cases heq
      have hi := (List.getElem?_eq_some_iff.1 he).1
      obtain ⟨x, hx, -, rfl, h', hconnected'⟩ := gossiping_of_propose hs h hconnected hi hpropose
      rw [proposals, hx]
      exact ⟨rfl, h', hconnected'⟩
    | _ => simp [Command.isGossip, Command.proposed?, hsilent] at hc

theorem gossiping_of_run {commands : List Command} {answers : List Answer} (hs : s.Sound)
    (h : s.Gossiping P P) (hconnected : s.Connected) (hrun : s.run commands = .ok (answers, s'))
    (hc : ∀ c ∈ commands, c.isGossip = true) :
    (s.collect proposals commands).map Proposal.state = commands.filterMap Command.proposed? ∧
      s'.Gossiping (P ++ s.collect proposals commands) (P ++ s.collect proposals commands) := by
  induction commands generalizing s P answers with
  | nil =>
    cases hrun
    rw [collect, List.append_nil]
    exact ⟨rfl, h⟩
  | cons c cs ih =>
    obtain ⟨hc, hcs⟩ := List.forall_mem_cons.1 hc
    obtain ⟨answer, s₁, rest, happly, hrun⟩ := run_cons_eq_ok hrun
    obtain ⟨as, htrace, -⟩ := apply_actions hs happly
    obtain ⟨hstates, h₁, hconnected₁⟩ := gossiping_of_apply hs h hconnected hc happly
    obtain ⟨hstates', h'⟩ := ih (htrace.sound hs) h₁ hconnected₁ hrun hcs
    have hcollect : s.collect proposals (c :: cs) = s.proposals c ++ s₁.collect proposals cs := by
      rw [collect, happly]
    rw [hcollect, ← List.append_assoc]
    refine ⟨?_, h'⟩
    rw [List.map_append, hstates, hstates']
    cases hproposed : c.proposed? <;> simp [hproposed]

theorem gossiping_of_setup {clock : Instant} {keys : List PublicKey} {setup : List Command}
    {answers : List Answer} (hrun : (start clock (keys.map fun k => .gossip (.initial k))).run setup =
      .ok (answers, s)) (hsilent : ∀ c ∈ setup, c.isSilent = true) :
    s.Sound ∧ s.Gossiping [] [] ∧ s.world.Spans := by
  have hkeep : ∀ {s : Simulation Engine ρ} {c answer s'}, c.isSilent = true →
      s.Sound ∧ s.Gossiping [] [] ∧ s.world.Spans → s.apply c = .ok (answer, s') →
        s'.Sound ∧ s'.Gossiping [] [] ∧ s'.world.Spans := by
    rintro s c answer s' hc ⟨hs, h, hspans⟩ happly
    obtain ⟨as, htrace, has⟩ := silent_trace hs hc happly []
    exact ⟨htrace.sound hs, htrace.gossiping hs h has, spans_of_apply hs hspans hc happly⟩
  exact run_induct hkeep hrun hsilent ⟨.start clock _, gossiping_start clock keys, fun m hm => nomatch hm⟩

/-- What the engines agree on after the proposals `P`, when all have heard of all of them. -/
structure Agreement (P : List Proposal) (s : Simulation Engine ρ) : Prop where
  height : ∀ i e, s.gossipAt i = some e → e.decided.height.value.toNat = Proposal.highest P
  state : ∀ x, P.filter (fun y => y.height.value.toNat = Proposal.highest P) = [x] →
    ∀ i e, s.gossipAt i = some e → e.decided.state = x.state
  /-- If there is a single proposer, the greatest height is the number of its proposals. -/
  count : ∀ k, (∀ x ∈ P, x.engine = k) → Proposal.highest P = P.length
  last : ∀ k, (∀ x ∈ P, x.engine = k) → ∀ x, P.getLast? = some x →
    ∀ i e, s.gossipAt i = some e → e.decided.state = x.state

omit [NormalSource ρ] in
theorem Gossiping.agreement (hs : s.Sound) (h : s.Gossiping P P) (hquiet : s.underway = []) :
    s.Agreement P where
  height i e hi := h.height_eq hs hquiet hi
  state x hx i e hi := by
    have hne : P ≠ [] := by
      rintro rfl
      cases hx
    obtain ⟨y, hy, hheight, hstate⟩ := h.decided_mem hs hquiet hne hi
    have hmem : y ∈ P.filter fun y => y.height.value.toNat = Proposal.highest P :=
      List.mem_filter.2 ⟨hy, decide_eq_true hheight⟩
    rw [hx] at hmem
    rw [← hstate, List.mem_singleton.1 hmem]
  count k hk := (h.highest_of_solo hk).2
  last k hk x hx i e hi := by
    obtain ⟨hheights, hhighest⟩ := h.highest_of_solo hk
    obtain ⟨y, hy, hheight, hstate⟩ := h.decided_mem hs hquiet (by rintro rfl; cases hx) hi
    -- the heights are one, two and so on, so only the last proposal has the greatest
    obtain ⟨n, hn⟩ := List.getElem?_of_mem hy
    have hlt := (List.getElem?_eq_some_iff.1 hn).1
    have hrange : (List.range' 1 P.length)[n]? = some y.height.value.toNat := by
      rw [← hheights, List.getElem?_map, hn]
      rfl
    rw [List.getElem?_range' hlt, hheight, hhighest, Option.some.injEq] at hrange
    rw [List.getLast?_eq_getElem?, show P.length - 1 = n by omega, hn] at hx
    rw [← hstate, Option.some.inj hx]

/-- Engines that gossip over a mesh on all of them hold only what was proposed, and they agree whenever
no message is under way. -/
theorem gossip_converges {clock : Instant} {keys : List PublicKey} {setup commands : List Command}
    {answers₀ answers : List Answer} {s₀ : Simulation Engine ρ}
    (hsetup : (start clock (keys.map fun k => .gossip (.initial k))).run setup = .ok (answers₀, s₀))
    (hsilent : ∀ c ∈ setup, c.isSilent = true) (hwired : s₀.isWired = true)
    (hrun : s₀.run commands = .ok (answers, s)) (hcommands : ∀ c ∈ commands, c.isGossip = true) :
    (s₀.collect proposals commands).map Proposal.state = commands.filterMap Command.proposed? ∧
    (∀ i, i < keys.length → ∃ e, s.gossipAt i = some e) ∧
    (∀ i e, s.gossipAt i = some e → 0 < e.decided.height.value.toNat →
      ∃ x ∈ s₀.collect proposals commands, x.height = e.decided.height ∧ x.state = e.decided.state) ∧
    (s.underway = [] → s.Agreement (s₀.collect proposals commands)) := by
  obtain ⟨hs₀, h₀, hspans⟩ := gossiping_of_setup hsetup hsilent
  obtain ⟨hstates, h⟩ := gossiping_of_run hs₀ h₀ (connected_of_isWired hspans hwired) hrun hcommands
  obtain ⟨as₀, htrace₀, -, -⟩ := run_trace (.start clock _) hsetup
  obtain ⟨as, htrace, -, -⟩ := run_trace hs₀ hrun
  rw [List.nil_append] at h
  have hlength : s.world.engines.length = keys.length := by
    rw [htrace.length_engines, htrace₀.length_engines]
    exact List.length_map _
  exact ⟨hstates, fun i hi => h.engines i (hlength ▸ hi), h.decided, h.agreement (htrace.sound hs₀)⟩

end

def trio : Simulation Engine Random.Stream :=
  start default ([⟨[1]⟩, ⟨[2]⟩, ⟨[3]⟩].map fun k => .gossip (.initial k))

def wiring : List Command := [.buildMesh jittery none, .wireMesh, .holdPeer 0 1]

/-- Two engines propose at once, and the third when it has heard of both. -/
def rivalry : List Command :=
  [.dropMesh, .proposeAt 0 ⟨[1]⟩, .propose 0 ⟨[2]⟩, .time (.runAll 4), .proposeAt 2 ⟨[3]⟩, .close 0,
    .time (.runAll 2)]

theorem gossip_converges_rivalry : ∃ answers₀ s₀ answers s, trio.run wiring = .ok (answers₀, s₀) ∧
    s₀.run rivalry = .ok (answers, s) ∧ ∀ i e, s.gossipAt i = some e →
      e.decided.height.value.toNat = 2 ∧ e.decided.state = ⟨[3]⟩ := by
  obtain ⟨answers₀, s₀, ⟨answers, s⟩, hsetup, hfind⟩ := exists_of_run trio wiring
    (fun s₀ => (s₀.run rivalry).toOption.filter fun r => s₀.isWired && r.2.underway.isEmpty &&
      (s₀.collect proposals rivalry).filter
        (fun x => x.height.value.toNat = Proposal.highest (s₀.collect proposals rivalry)) =
          [⟨2, ⟨2⟩, ⟨[3]⟩⟩]) (by decide +kernel)
  obtain ⟨hok, hfound⟩ := Option.filter_eq_some_iff.1 hfind
  simp only [Bool.and_eq_true, List.isEmpty_iff, decide_eq_true_eq] at hfound
  obtain ⟨⟨hwired, hquiet⟩, hlast⟩ := hfound
  have hrun : s₀.run rivalry = .ok (answers, s) := by
    cases hr : s₀.run rivalry with
    | error r => rw [hr] at hok; cases hok
    | ok r => rw [hr] at hok; cases hok; rfl
  have hagreement := (gossip_converges hsetup (by decide) hwired hrun (by decide)).2.2.2 hquiet
  have hhighest := (List.mem_filter.1 (hlast.symm ▸ List.mem_singleton.2 rfl)).2
  rw [decide_eq_true_eq] at hhighest
  exact ⟨answers₀, s₀, answers, s, hsetup, hrun, fun i e hi =>
    ⟨(hagreement.height i e hi).trans hhighest.symm, hagreement.state _ hlast i e hi⟩⟩

end Simulation

end VirtualMesh

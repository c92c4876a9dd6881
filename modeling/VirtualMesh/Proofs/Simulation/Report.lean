import VirtualMesh.Proofs.Merging
import VirtualMesh.Proofs.Simulation.Updates

/-!
# The report on a mesh

The report merges the statistics of the peers, one after another in the order of the mesh. A single recorder that
takes down all that arrives anywhere in the mesh, in the order in which it does, would hold the same statistics,
provided that the delays can be added up in any order.
-/

namespace VirtualMesh

namespace Arrival

/-- What an arrival adds to the deliveries. -/
def deliveries (x : Arrival) : List (Delay × Nat) := if x.isDropped then [] else [(x.delay, x.payload.length)]

/-- What an arrival adds to the number of messages dropped. -/
def drops (x : Arrival) : Nat := if x.isDropped then 1 else 0

theorem flatMap_deliveries (l : List Arrival) :
    l.flatMap deliveries = (l.filter fun x => !x.isDropped).map fun x => (x.delay, x.payload.length) := by
  induction l with
  | nil => rfl
  | cons x l ih =>
    rw [List.flatMap_cons, ih]
    cases hx : x.isDropped <;> simp [deliveries, hx]

theorem filter_isDelivered {l : List Arrival} (h : ∀ x ∈ l, x.outcome = .delivered ∨ x.outcome = .dropped) :
    l.filter isDelivered = l.filter fun x => !x.isDropped := by
  refine List.filter_congr fun x hx => ?_
  rcases h x hx with hx | hx <;> simp [isDropped, isDelivered, hx]

theorem sum_drops (l : List Arrival) : (l.map drops).sum = l.countP isDropped := by
  induction l with
  | nil => rfl
  | cons x l ih => rw [List.map_cons, List.sum_cons, ih, List.countP_cons, drops, Nat.add_comm]

end Arrival

namespace PeerStats

/-- Takes down one arrival, at whatever peer. -/
def recordArrival (s : PeerStats) (x : Arrival) : Except Fault PeerStats :=
  if x.isDropped then s.recordDrop else s.recordDelivery x.delay x.payload.length

theorem Describes.yields_recordArrival {s : PeerStats} {xs : List (Delay × Nat)} {n : Nat} (h : s.Describes xs n)
    (x : Arrival) : Yields (s.recordArrival x) (xs ++ x.deliveries) (n + x.drops) := by
  unfold recordArrival Arrival.deliveries Arrival.drops
  cases x.isDropped with
  | true =>
    rw [if_pos rfl, if_pos rfl, if_pos rfl, List.append_nil]
    exact h.yields_recordDrop
  | false => exact h.yields_recordDelivery x.delay x.payload.length

end PeerStats

/-- The lists for several keys together are the list for all of them, up to the order. -/
theorem flatMap_filter_perm {α : Type} (key : α → Nat) (l : List α) : ∀ {ps : List Nat}, ps.Nodup →
    (ps.flatMap fun p => l.filter fun x => key x = p).Perm (l.filter fun x => key x ∈ ps)
  | [], _ => by simp
  | p :: ps, h => by
    obtain ⟨hp, hps⟩ := List.nodup_cons.1 h
    have hsplit := List.filter_append_perm (fun x => key x = p) (l.filter fun x => key x ∈ p :: ps)
    rw [List.filter_filter, List.filter_filter] at hsplit
    have hself : (l.filter fun x => decide (key x = p) && decide (key x ∈ p :: ps)) = l.filter fun x => key x = p :=
      List.filter_congr fun x _ => by by_cases hx : key x = p <;> simp [hx]
    have hrest : (l.filter fun x => !decide (key x = p) && decide (key x ∈ p :: ps)) = l.filter fun x => key x ∈ ps :=
      List.filter_congr fun x _ => by by_cases hx : key x = p <;> simp [hx, hp]
    rw [hself, hrest] at hsplit
    rw [List.flatMap_cons]
    exact ((flatMap_filter_perm key l hps).append_left _).trans hsplit

namespace Simulation

variable {ε ρ : Type}

section
variable (s : Simulation ε ρ) (m : Mesh)

/-- What has arrived at the peers of a mesh, in the order in which it did. -/
def arrivalsIn : List Arrival := s.arrivals.filter fun x => x.peer ∈ m.peers

/-- The statistics that take down everything that has arrived in a mesh, in the order in which it did. -/
def recorder : Except Fault PeerStats := (s.arrivalsIn m).foldlM PeerStats.recordArrival .empty

end

variable {s : Simulation ε ρ} {m : Mesh}

/-- Delays of peers without negative delays are not below zero. -/
theorem nanos_nonneg_of_clamp [NormalSource ρ] (hdrawn : s.Drawn) {x : Sending} (hx : x ∈ s.sent)
    (hclamp : ∀ peer, s.world.peers[x.peer]? = some peer → peer.config.negative = .clamp) : 0 ≤ x.delay.nanos := by
  obtain ⟨-, origin, source, horigin, hdelay⟩ := hdrawn x hx
  obtain ⟨peer, hpeer, rfl⟩ := World.exists_of_origin horigin
  have hconfig : peer.origin.config.negative = .clamp := hclamp peer hpeer
  rw [hdelay, Peer.recorded, hconfig]
  exact Int.le_max_right _ _

theorem Counted.deliveries_in (h : s.Counted) (m : Mesh) : (s.arrivalsIn m).flatMap Arrival.deliveries =
    ((s.arrivalsIn m).filter Arrival.isDelivered).map fun x => (x.delay, x.payload.length) := by
  have houtcomes : ∀ x ∈ s.arrivalsIn m, x.outcome = .delivered ∨ x.outcome = .dropped := fun x hx =>
    h.outcomes x (List.mem_filter.1 hx).1
  rw [Arrival.flatMap_deliveries, Arrival.filter_isDelivered houtcomes]

theorem summable_arrivalsIn [NormalSource ρ] (hledger : s.Ledger) (hdrawn : s.Drawn) (hcounted : s.Counted)
    (hdelays : (∀ p ∈ m.peers, ∀ peer, s.world.peers[p]? = some peer → peer.config.negative = .clamp) ∨
      (((s.arrivalsIn m).filter Arrival.isDelivered).map fun x => x.delay.nanos.natAbs).sum < 2 ^ 63) :
    Delay.Summable .zero (((s.arrivalsIn m).flatMap Arrival.deliveries).map Prod.fst) := by
  rw [hcounted.deliveries_in, List.map_map]
  refine hdelays.imp (fun hclamp d hd => ?_) fun hlt => by simpa [Delay.zero, Function.comp_def] using hlt
  obtain ⟨x, hx, rfl⟩ := List.mem_map.1 hd
  obtain ⟨hx, hp⟩ := List.mem_filter.1 (List.mem_filter.1 hx).1
  obtain ⟨y, hy, heq⟩ := exists_sent_of_arrival hledger hx
  have hnonneg := nanos_nonneg_of_clamp hdrawn hy (by rw [heq]; exact hclamp _ (of_decide_eq_true hp))
  rwa [heq] at hnonneg

theorem Counted.describes (h : s.Counted) {p : Nat} {stats : PeerStats} (hp : s.world.stats[p]? = some stats) :
    stats.Describes ((s.arrivalsAt p).flatMap Arrival.deliveries) ((s.arrivalsAt p).map Arrival.drops).sum := by
  rw [Arrival.flatMap_deliveries, Arrival.sum_drops]
  exact h.stats p stats hp

theorem yields_recorder (hsum : Delay.Summable .zero (((s.arrivalsIn m).flatMap Arrival.deliveries).map Prod.fst)) :
    PeerStats.Yields (s.recorder m) ((s.arrivalsIn m).flatMap Arrival.deliveries)
      ((s.arrivalsIn m).map Arrival.drops).sum := by
  have hyields := PeerStats.describes_empty.yields_foldlM (l := s.arrivalsIn m)
    (fun x _ stats ys n h _ => h.yields_recordArrival x) hsum
  rwa [List.nil_append, Nat.zero_add] at hyields

theorem yields_merge (hcounted : s.Counted) (hpeers : ∀ p ∈ m.peers, p < s.world.peers.length)
    (hnodup : m.peers.Nodup) (hsum : Delay.Summable .zero (((s.arrivalsIn m).flatMap Arrival.deliveries).map Prod.fst)) :
    PeerStats.Yields ((m.peers.filterMap fun p => (s.world.peers[p]?).map Peer.stats).foldlM PeerStats.merge .empty)
      ((s.arrivalsIn m).flatMap Arrival.deliveries) ((s.arrivalsIn m).map Arrival.drops).sum := by
  let statsOf (p : Nat) : PeerStats := (s.world.stats[p]?).getD .empty
  have hstats : ∀ p ∈ m.peers, s.world.stats[p]? = some (statsOf p) := by
    intro p hp
    have hlt : p < s.world.stats.length := by simpa [World.stats] using hpeers p hp
    simp [statsOf, List.getElem?_eq_getElem hlt]
  have hlist : (m.peers.filterMap fun p => (s.world.peers[p]?).map Peer.stats) = m.peers.map statsOf :=
    List.filterMap_eq_map_iff_forall_eq_some.2 fun p hp => by rw [← hstats p hp, World.stats, List.getElem?_map]
  -- what arrived at each of the peers is what arrived at all of them, in another order
  have hperm : (m.peers.flatMap s.arrivalsAt).Perm (s.arrivalsIn m) :=
    flatMap_filter_perm (fun x : Arrival => x.peer) s.arrivals hnodup
  have hdeliveries := hperm.flatMap_right Arrival.deliveries
  rw [List.flatMap_assoc] at hdeliveries
  have hdrops : (m.peers.map fun p => ((s.arrivalsAt p).map Arrival.drops).sum).sum =
      ((s.arrivalsIn m).map Arrival.drops).sum := by
    rw [← (hperm.map Arrival.drops).sum_eq, List.map_flatMap, List.flatMap_def, List.sum_flatten, List.map_map]
    rfl
  have hsum' := hsum.perm (hdeliveries.map Prod.fst).symm
  have hyields := PeerStats.describes_empty.yields_foldlM (l := m.peers) (f := fun stats p => stats.merge (statsOf p))
    (fun p hp stats ys n h hsum => h.yields_merge (hcounted.describes (hstats p hp)) hsum) hsum'
  rw [List.nil_append, Nat.zero_add, hdrops] at hyields
  rw [hlist, List.foldlM_map]
  exact hyields.perm hdeliveries hsum'

theorem report_eq_ok {w : World ε ρ} {total : PeerStats} {mean : Option Delay}
    (htotal : (m.peers.filterMap fun p => (w.peers[p]?).map Peer.stats).foldlM PeerStats.merge .empty = .ok total)
    (hmean : total.meanLatency = .ok mean) : w.report m = .ok ⟨.ofNat m.size,
      .ofNat (m.peers.filterMap fun p => (w.peers[p]?).map Peer.stats).length, total, mean⟩ := by
  simp only [World.report, MeshReport.of, htotal, hmean, bind, Except.bind]
  rfl

/-- The report on a mesh says what a single recorder says that takes down every delivery and every drop in the mesh
in the order in which they happen. It fails only if that recorder fails, by an overflow. -/
theorem report_of_history [NormalSource ρ] [Consensus ε] {clock : Instant} {engines : List ε} {commands : List Command}
    {answers : List Answer} (hrun : (start clock engines).run commands = .ok (answers, s)) (hm : s.world.mesh = some m)
    (hdelays : (∀ p ∈ m.peers, ∀ peer, s.world.peers[p]? = some peer → peer.config.negative = .clamp) ∨
      (((s.arrivalsIn m).filter Arrival.isDelivered).map fun x => x.delay.nanos.natAbs).sum < 2 ^ 63) :
    ∃ places first source config, s.world.Hosts m places first source config ∧
      (∀ total, s.recorder m = .ok total → ∃ report, s.world.report m = .ok report ∧ report.stats = total ∧
        report.engines = UInt64.ofNat places.length ∧
          report.peers = UInt64.ofNat (places.length * (places.length - 1)) ∧
            total.meanLatency = .ok report.meanLatency ∧
              (report.meanLatency = none ↔ (s.arrivalsIn m).filter Arrival.isDelivered = [])) ∧
      ∀ f, s.recorder m = .error f → s.world.report m = .error f := by
  have hs := sound_of_run hrun
  have hcounted := counted_of_run hrun
  obtain ⟨places, first, source, config, hhosts⟩ := meshed_of_run hrun m hm
  have hpeers := hs.world.mesh m hm
  have hnumbers : m.peers = List.range' first (places.length * (places.length - 1)) := by
    rw [hhosts.mesh, Mesh.peers_number]
  have hnodup : m.peers.Nodup := hnumbers ▸ List.nodup_range'
  have hsum := summable_arrivalsIn hs.ledger (drawn_of_run hrun) hcounted hdelays
  have hrecorder := yields_recorder hsum
  have hmerge := hrecorder.unique (yields_merge hcounted hpeers hnodup hsum)
  have hlength : (m.peers.filterMap fun p => (s.world.peers[p]?).map Peer.stats).length =
      places.length * (places.length - 1) := by
    rw [List.filterMap_length_eq_length.2 fun p hp => by simpa using hpeers p hp, hnumbers, List.length_range']
  have hsize : m.size = places.length := by
    rw [hhosts.mesh]
    simp [Mesh.size, Mesh.number]
  refine ⟨places, first, source, config, hhosts, ?_, ?_⟩
  · intro total htotal
    rcases hrecorder with ⟨-, total', htotal', hdescribes⟩ | ⟨-, herror⟩
    · obtain rfl := Except.ok.inj (htotal.symm.trans htotal')
      obtain ⟨mean, hmean, hnone⟩ := hdescribes.exists_mean hsum
      refine ⟨_, report_eq_ok (hmerge ▸ htotal) hmean, rfl, congrArg UInt64.ofNat hsize,
        congrArg UInt64.ofNat hlength, hmean, hnone.trans ?_⟩
      rw [hcounted.deliveries_in, List.map_eq_nil_iff]
    · rw [herror] at htotal
      cases htotal
  · intro f hf
    rw [hmerge] at hf
    simp only [World.report, MeshReport.of, hf, bind, Except.bind]

/-- Four messages, of which the last two arrive when the mesh has been closed. -/
def closedMidway : List Command :=
  [.buildMesh { jittery with onClose := .drop } none, .broadcast 0 [1], .broadcast 1 [2, 3], .time (.runAll 2), .closeMesh,
    .time (.runAll 2)]

theorem report_of_history_closedMidway : ∃ answers s m total report, trio.run closedMidway = .ok (answers, s) ∧
    s.world.mesh = some m ∧ s.recorder m = .ok total ∧ s.world.report m = .ok report ∧ report.stats = total ∧
      total.messages = 2 ∧ total.dropped = 2 := by
  obtain ⟨answers, s, ⟨m, total⟩, hrun, hfind⟩ := exists_of_run trio closedMidway
    (fun s => (s.world.mesh.bind fun m => (s.recorder m).toOption.map (m, ·)).filter fun x =>
      (x.1.peers.all fun p => (s.world.peers[p]?).all fun peer => peer.config.negative = .clamp) &&
        x.2.messages = 2 && x.2.dropped = 2) (by decide +kernel)
  obtain ⟨hfound, hcheck⟩ := Option.filter_eq_some_iff.1 hfind
  obtain ⟨m', hm, hfound⟩ := Option.bind_eq_some_iff.1 hfound
  obtain ⟨total', htotal, heq⟩ := Option.map_eq_some_iff.1 hfound
  cases heq
  simp only [Bool.and_eq_true, List.all_eq_true, decide_eq_true_eq] at hcheck
  obtain ⟨⟨hclamp, hmessages⟩, hdropped⟩ := hcheck
  have hclamp' : ∀ p ∈ m.peers, ∀ peer, s.world.peers[p]? = some peer → peer.config.negative = .clamp := by
    intro p hp peer hpeer
    simpa [hpeer] using hclamp p hp
  have htotal := toOption_eq_some.1 htotal
  obtain ⟨_, _, _, _, -, hreport, -⟩ := report_of_history hrun hm (.inl hclamp')
  obtain ⟨report, hok, hstats, -⟩ := hreport total htotal
  exact ⟨answers, s, m, total, report, hrun, hm, htotal, hok, hstats, hmessages, hdropped⟩

end Simulation

end VirtualMesh

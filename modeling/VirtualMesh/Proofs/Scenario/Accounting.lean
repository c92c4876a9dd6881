import VirtualMesh.Proofs.Scenario.Playing
import VirtualMesh.Proofs.Simulation.Report

/-!
# The account of a scenario

The report on a scenario is taken when all its calls have been made, a peer at a time. Tasks may still run, between
two peers too: a message that arrives after its peer has been read is missing from the report.
-/

namespace VirtualMesh

variable {ε ρ : Type}

/-! ## Reports on deliveries of one size -/

namespace PeerStats

variable {size : Nat} {s t : PeerStats}

theorem Even.exists_merge (hs : s.Even size) (ht : t.Even size) (hmessages : s.messages.toNat + t.messages.toNat < 2 ^ 64)
    (hbytes : (s.messages.toNat + t.messages.toNat) * size < 2 ^ 64) :
    ∃ u, s.merge t = .ok u ∧ u.Even size ∧ u.messages.toNat = s.messages.toNat + t.messages.toNat := by
  have hbytes' : s.bytes.toNat + t.bytes.toNat < 2 ^ 64 := by rwa [hs.bytes, ht.bytes, ← Nat.add_mul]
  obtain ⟨xs, hxs, hsizes⟩ := hs
  obtain ⟨ys, hys, hsizes'⟩ := ht
  have hall := List.forall_mem_append.2 ⟨hsizes, hsizes'⟩
  have hsum : Delay.Summable .zero ((xs ++ ys).map Prod.fst) := .inl fun d hd => by
    obtain ⟨y, hy, rfl⟩ := List.mem_map.1 hd
    exact (hall y hy).2
  rcases s.merge_cases t with ⟨-, u, hu⟩ | ⟨hover, -⟩
  · exact ⟨u, hu, ⟨xs ++ ys, hxs.merge hys hsum hu, hall⟩, (merge_eq_ok.1 hu).1⟩
  · refine absurd ⟨hmessages, hbytes', ?_⟩ hover
    rw [hxs.dropped, hys.dropped]
    decide

theorem Even.exists_foldlM_merge (hs : s.Even size) {l : List PeerStats} (hl : ∀ t ∈ l, t.Even size)
    (hmessages : s.messages.toNat + (l.map fun t => t.messages.toNat).sum < 2 ^ 64)
    (hbytes : (s.messages.toNat + (l.map fun t => t.messages.toNat).sum) * size < 2 ^ 64) : ∃ u,
      l.foldlM merge s = .ok u ∧ u.Even size ∧
        u.messages.toNat = s.messages.toNat + (l.map fun t => t.messages.toNat).sum := by
  induction l generalizing s with
  | nil => exact ⟨s, rfl, hs, rfl⟩
  | cons t l ih =>
    obtain ⟨ht, hl⟩ := List.forall_mem_cons.1 hl
    rw [List.map_cons, List.sum_cons, ← Nat.add_assoc] at hmessages hbytes ⊢
    have hle := Nat.mul_le_mul_right size (Nat.le_add_right (s.messages.toNat + t.messages.toNat)
      (l.map fun t => t.messages.toNat).sum)
    obtain ⟨u, hu, heven, hcount⟩ := hs.exists_merge ht (by omega) (by omega)
    rw [← hcount] at hmessages hbytes ⊢
    rw [List.foldlM_cons, hu]
    exact ih heven hl hmessages hbytes

theorem Even.exists_mean (hs : s.Even size) : ∃ mean, s.meanLatency = .ok mean := by
  obtain ⟨xs, hxs, hsizes⟩ := hs
  obtain ⟨mean, hmean, -⟩ := hxs.exists_mean (.inl fun d hd => by
    obtain ⟨y, hy, rfl⟩ := List.mem_map.1 hd
    exact (hsizes y hy).2)
  exact ⟨mean, hmean⟩

end PeerStats

namespace MeshReport

/-- A report on deliveries of one size. -/
theorem exists_of_even {size : Nat} (engines : Nat) {l : List PeerStats} (hl : ∀ t ∈ l, t.Even size)
    (hmessages : (l.map fun t => t.messages.toNat).sum < 2 ^ 64)
    (hbytes : (l.map fun t => t.messages.toNat).sum * size < 2 ^ 64) : ∃ report, MeshReport.of engines l = .ok report ∧
      report.engines = .ofNat engines ∧ report.peers = .ofNat l.length ∧ report.stats.Even size ∧
        report.stats.messages.toNat = (l.map fun t => t.messages.toNat).sum := by
  have hzero : PeerStats.empty.messages.toNat = 0 := rfl
  obtain ⟨total, htotal, heven, hcount⟩ := (PeerStats.even_empty size).exists_foldlM_merge hl
    (by rwa [hzero, Nat.zero_add]) (by rwa [hzero, Nat.zero_add])
  obtain ⟨mean, hmean⟩ := heven.exists_mean
  rw [hzero, Nat.zero_add] at hcount
  refine ⟨⟨.ofNat engines, .ofNat l.length, total, mean⟩, ?_, rfl, rfl, heven, hcount⟩
  simp only [MeshReport.of, htotal, hmean, bind, Except.bind]
  rfl

end MeshReport

namespace Scenario

/-! ## Reading the peers -/

/-- What the report finds at a peer, and how many messages are then still under way to it. -/
structure Reading where
  stats : PeerStats
  late : Nat

/-- Peers are read one after another, and anything may happen before the next. -/
inductive Reads [NormalSource ρ] [Consensus ε] : Simulation ε ρ → List Nat → List Reading → Prop
  | nil {s : Simulation ε ρ} : Reads s [] []
  | cons {s s' : Simulation ε ρ} {p : Nat} {ps : List Nat} {stats : PeerStats} {rs : List Reading}
      (h : Reaches ([], s) ([], s')) (hp : s'.world.stats[p]? = some stats) (hrest : Reads s' ps rs) :
      Reads s (p :: ps) (⟨stats, s'.underway.countP fun m => m.peer = p⟩ :: rs)

/-- A report says how many messages have arrived; the others are late. -/
structure Accounts (x : Scenario) (expected : UInt64) (report : MeshReport) (late : Nat) : Prop where
  engines : report.engines.toNat = x.engineCount
  peers : report.peers.toNat = x.engineCount * (x.engineCount - 1)
  dropped : report.stats.dropped = 0
  bytes : report.stats.bytes.toNat = report.stats.messages.toNat * x.payloadSize
  messages : report.stats.messages.toNat + late = expected.toNat
  allDelivered : ∀ elapsed, (ScenarioResult.mk x.name report expected elapsed).allDelivered = true ↔ late = 0

variable {x : Scenario} {cs : List Call} {s : Simulation ε ρ}

section
variable [NormalSource ρ] [Consensus ε]

theorem OnTrack.readings (h : OnTrack x [] s) {ps : List Nat} {rs : List Reading} (hreads : Reads s ps rs) :
    rs.length = ps.length ∧
      ∀ r ∈ rs, r.stats.Even x.payloadSize ∧ r.stats.messages.toNat + r.late = x.rounds := by
  induction hreads with
  | nil => exact ⟨rfl, fun _ hr => nomatch hr⟩
  | cons hreaches hp _ ih =>
    have h' := h.reaches hreaches
    obtain ⟨hlength, hall⟩ := ih h'
    obtain ⟨heven, hcount⟩ := h'.counted _ _ hp
    exact ⟨congrArg Nat.succ hlength, List.forall_mem_cons.2 ⟨⟨heven, hcount⟩, hall⟩⟩

/-- All peers may be read at one moment. -/
theorem reads_at_once {ps : List Nat} (hps : ∀ p ∈ ps, p < s.world.peers.length) : ∃ rs, Reads s ps rs ∧
    rs.map Reading.stats = ps.filterMap (fun p => (s.world.peers[p]?).map Peer.stats) ∧
      rs.map Reading.late = ps.map fun p => s.underway.countP fun m => m.peer = p := by
  induction ps with
  | nil => exact ⟨[], .nil, rfl, rfl⟩
  | cons p ps ih =>
    obtain ⟨hp, hps⟩ := List.forall_mem_cons.1 hps
    obtain ⟨rs, hreads, hstats, hlate⟩ := ih hps
    have hpeer := List.getElem?_eq_getElem hp
    refine ⟨_ :: rs, .cons .refl (World.stats_of_peer hpeer) hreads, ?_, ?_⟩
    · rw [List.map_cons, hstats, List.filterMap_cons_some (by rw [hpeer]; rfl)]
    · rw [List.map_cons, hlate, List.map_cons]

end

/-! ## Adding up -/

theorem expectedMessages_eq_ok {expected : UInt64} (h : x.expectedMessages = .ok expected) :
    x.engineCount * (x.engineCount - 1) < 2 ^ 64 ∧
      expected.toNat = x.engineCount * (x.engineCount - 1) * x.rounds := by
  simp only [expectedMessages, mulCount, bind, Except.bind] at h
  split at h
  · cases h
  · rename_i pairs hpairs
    split at hpairs
    · rename_i hlt
      cases hpairs
      split at h
      · cases h
      · rename_i messages hmessages
        split at hmessages
        · rename_i hlt'
          cases hmessages
          cases h
          exact ⟨hlt, UInt64.toNat_ofNat_of_lt' hlt'⟩
        · cases hmessages
    · cases hpairs

/-- 64 bits hold what is sent to one peer. -/
theorem bounds_of_expectedMessages {expected : UInt64} (hn : 2 ≤ x.engineCount)
    (hexpected : x.expectedMessages = .ok expected) (hbytes : expected.toNat * x.payloadSize < 2 ^ 64) :
    x.rounds < 2 ^ 64 ∧ x.rounds * x.payloadSize < 2 ^ 64 := by
  have hpairs : 0 < x.engineCount * (x.engineCount - 1) := Nat.mul_pos (by omega) (by omega)
  have hle : x.rounds ≤ expected.toNat := by
    rw [(expectedMessages_eq_ok hexpected).2]
    exact Nat.le_mul_of_pos_left _ hpairs
  exact ⟨Nat.lt_of_le_of_lt hle expected.toNat_lt, Nat.lt_of_le_of_lt (Nat.mul_le_mul_right _ hle) hbytes⟩

theorem sum_readings {rs : List Reading} {rounds : Nat} (h : ∀ r ∈ rs, r.stats.messages.toNat + r.late = rounds) :
    ((rs.map Reading.stats).map fun t => t.messages.toNat).sum + (rs.map Reading.late).sum = rs.length * rounds := by
  rw [List.map_map, ← List.sum_map_add]
  simp only [Function.comp_apply]
  rw [List.map_congr_left h, List.map_const', List.sum_replicate, smul_eq_mul]

/-- Whatever the peers are found to have counted, the report accounts for all messages. -/
theorem exists_accounts {expected : UInt64} (hn : 2 ≤ x.engineCount) (hexpected : x.expectedMessages = .ok expected)
    (hbytes : expected.toNat * x.payloadSize < 2 ^ 64) {rs : List Reading}
    (hlength : rs.length = x.engineCount * (x.engineCount - 1))
    (hrs : ∀ r ∈ rs, r.stats.Even x.payloadSize ∧ r.stats.messages.toNat + r.late = x.rounds) : ∃ report,
      MeshReport.of x.engineCount (rs.map Reading.stats) = .ok report ∧
        Accounts x expected report (rs.map Reading.late).sum := by
  obtain ⟨hpairs, htotal⟩ := expectedMessages_eq_ok hexpected
  have hsum := sum_readings fun r hr => (hrs r hr).2
  rw [hlength, ← htotal] at hsum
  have hle := Nat.mul_le_mul_right x.payloadSize (Nat.le.intro hsum)
  have hmax := expected.toNat_lt
  obtain ⟨report, hreport, hengines, hpeers, heven, hmessages⟩ := MeshReport.exists_of_even x.engineCount
    (l := rs.map Reading.stats) (List.forall_mem_map.2 fun r hr => (hrs r hr).1) (by omega) (by omega)
  have hcount : report.stats.messages.toNat + (rs.map Reading.late).sum = expected.toNat := hmessages ▸ hsum
  have hsize : x.engineCount < 2 ^ 64 :=
    Nat.lt_of_le_of_lt (Nat.le_mul_of_pos_right _ (by omega)) hpairs
  refine ⟨report, hreport, ?_⟩
  constructor
  case engines => rw [hengines, UInt64.toNat_ofNat_of_lt' hsize]
  case peers => rw [hpeers, List.length_map, hlength, UInt64.toNat_ofNat_of_lt' hpairs]
  case dropped => exact heven.dropped
  case bytes => exact heven.bytes
  case messages => exact hcount
  case allDelivered =>
    intro elapsed
    rw [ScenarioResult.allDelivered, decide_eq_true_iff, ← UInt64.toNat_inj]
    show report.stats.messages.toNat = expected.toNat ↔ _
    omega

theorem sum_countP_underway {n : Nat} (h : ∀ m ∈ s.underway, m.peer < n) :
    ((List.range n).map fun p => s.underway.countP fun m => m.peer = p).sum = s.underway.length := by
  have hperm := (flatMap_filter_perm (fun m : Message => m.peer) s.underway (List.nodup_range (n := n))).length_eq
  rw [List.length_flatMap, List.filter_eq_self.2 fun m hm => by simpa using h m hm] at hperm
  simpa only [List.countP_eq_length_filter] using hperm

/-! ## The account at every moment -/

/-- The next call can be made and every task can run; all messages are accounted for, as sent or as still to be sent,
and when all calls have been made, in any report. -/
structure Balanced [NormalSource ρ] [Consensus ε] (x : Scenario) (expected : UInt64) (m : Mesh) (cs : List Call)
    (s : Simulation ε ρ) : Prop where
  call : ∀ c rest, cs = c :: rest → (s.clock.add? Delay.top.clamped).isSome = true → ∃ s', c.perform s = .ok s'
  task : ∀ before e after, s.queue = before ++ e :: after → ∃ s', s.fire World.handler e (before ++ after) = .ok s'
  sent : s.sent.length + cs.countP (fun c => c.target?.isSome) = expected.toNat
  report : cs = [] → ∃ report, s.world.report m = .ok report ∧ Accounts x expected report s.underway.length
  reads : cs = [] → ∀ rs, Reads s m.peers rs → ∃ report,
    MeshReport.of m.size (rs.map Reading.stats) = .ok report ∧ Accounts x expected report (rs.map Reading.late).sum

section
variable [NormalSource ρ]

theorem OnTrack.balanced [Consensus ε] (h : OnTrack x cs s) {expected : UInt64} (hn : 2 ≤ x.engineCount)
    (hexpected : x.expectedMessages = .ok expected) (hbytes : expected.toNat * x.payloadSize < 2 ^ 64) {m : Mesh}
    (hsize : m.size = x.engineCount) (hm : m.peers = List.range (x.engineCount * (x.engineCount - 1))) :
    Balanced x expected m cs s := by
  have hreads : cs = [] → ∀ rs, Reads s m.peers rs → ∃ report,
      MeshReport.of m.size (rs.map Reading.stats) = .ok report ∧
        Accounts x expected report (rs.map Reading.late).sum := by
    rintro rfl rs hrs
    obtain ⟨hlength, hall⟩ := h.readings hrs
    rw [hm, List.length_range] at hlength
    rw [hsize]
    exact exists_accounts hn hexpected hbytes hlength hall
  constructor
  case call =>
    rintro c rest rfl hclock
    obtain ⟨s', hs', -⟩ := h.exists_perform hclock
    exact ⟨s', hs'⟩
  case task =>
    intro before e after hq
    obtain ⟨hmessages, hbytes⟩ := bounds_of_expectedMessages hn hexpected hbytes
    exact h.exists_fire hmessages hbytes hq
  case sent => rw [h.sent, (expectedMessages_eq_ok hexpected).2]
  case report =>
    intro hcs
    have hpeers : ∀ p ∈ m.peers, p < s.world.peers.length := fun p hp => by
      rw [h.size]
      exact List.mem_range.1 (hm ▸ hp)
    -- the report of one moment is one of those that are read peer by peer
    obtain ⟨rs, hrs, hstats, hlate⟩ := reads_at_once hpeers
    have hsum := sum_countP_underway fun y hy => h.size ▸ (h.underway y hy).1
    obtain ⟨report, hreport, haccounts⟩ := hreads hcs rs hrs
    rw [hstats] at hreport
    rw [hlate, hm, hsum] at haccounts
    exact ⟨report, hreport, haccounts⟩
  case reads => exact hreads

theorem length_engines (x : Scenario) : x.engines.length = x.engineCount := by
  rw [engines, List.length_map, List.length_range]

theorem run_eq_ok (hn : 2 ≤ x.engineCount) {w : World RecordingEngine ρ} {m : Mesh}
    (hw : (World.ofEngines x.engines).buildMesh (List.range x.engines.length) x.config = .ok w) (hm : w.mesh = some m)
    {s : Simulation RecordingEngine ρ} (hplay : x.play w m = .ok s) {report : MeshReport}
    (hreport : s.world.report m = .ok report) {expected : UInt64} (hexpected : x.expectedMessages = .ok expected) :
    x.run ρ true = .ok ⟨x.name, report, expected, x.settle⟩ := by
  have hsize : ¬x.engineCount < Mesh.minSize := Nat.not_lt.2 hn
  simp only [run, if_neg hsize, hw, hm, Option.getD_some, hplay, hreport, hexpected, bind, Except.bind]
  rfl

/-- A scenario accounts for exactly the messages that it expects. Its calls always send as many, nothing that its
scheduler does in between can stop it or lose one of them, and the report counts those that are no longer under way. -/
theorem accounts_for_expected (x : Scenario) (ρ : Type) [NormalSource ρ] :
    (x.engineCount < 2 → ∀ hasRuntime, x.run ρ hasRuntime = .error (.tooFewEngines x.name)) ∧
    ∀ expected, 2 ≤ x.engineCount → x.expectedMessages = .ok expected → expected.toNat * x.payloadSize < 2 ^ 64 →
      expected.toNat = x.engineCount * (x.engineCount - 1) * x.rounds ∧
      ∃ (w : World RecordingEngine ρ) (m : Mesh),
        (World.ofEngines x.engines).buildMesh (List.range x.engines.length) x.config = .ok w ∧ w.mesh = some m ∧
        (∀ clock cs s, Reaches (x.calls m, Machine.startingAt clock w) (cs, s) → Balanced x expected m cs s) ∧
        ∃ s result, Reaches (x.calls m, Machine.startingAt start w) ([], s) ∧ x.run ρ true = .ok result ∧
          s.world.report m = .ok result.report ∧ result.expected = expected ∧
            Accounts x expected result.report s.underway.length ∧
              (result.allDelivered = true ↔ s.underway = []) := by
  refine ⟨fun hfew _ => if_pos hfew, fun expected hn hexpected hbytes => ?_⟩
  obtain ⟨w, m, hw, hmesh, hsize, hm, hstart⟩ := x.exists_mesh (ρ := ρ) hn x.length_engines
  obtain ⟨hmessages, hbytes'⟩ := bounds_of_expectedMessages hn hexpected hbytes
  have hbalanced : ∀ clock cs s, Reaches (x.calls m, Machine.startingAt clock w) (cs, s) →
      Balanced x expected m cs s := fun clock cs s hreaches =>
    ((hstart clock).reaches hreaches).balanced hn hexpected hbytes hsize hm
  obtain ⟨s, hplay, hreaches⟩ := (hstart start).exists_play hmessages hbytes'
  obtain ⟨report, hreport, haccounts⟩ := (hbalanced start [] s hreaches).report rfl
  refine ⟨(expectedMessages_eq_ok hexpected).2, w, m, hw, hmesh, hbalanced, s, ⟨x.name, report, expected, x.settle⟩,
    hreaches, run_eq_ok hn hw hmesh hplay hreport hexpected, hreport, rfl, haccounts, ?_⟩
  rw [haccounts.allDelivered, List.length_eq_zero_iff]

end

/-- Four messages, of which two are still under way when the mesh is closed. -/
def hasty : Scenario where
  name := "Hasty"
  description := "Two engines that do not wait for slow messages"
  engineCount := 2
  latency := milliseconds 50
  rounds := 2
  payloadSize := 3
  settle := milliseconds 50
  seed := 1

theorem accounts_for_expected_hasty : ∃ (s : Simulation RecordingEngine Random.Stream) (result : ScenarioResult),
    hasty.run Random.Stream true = .ok result ∧ Accounts hasty 4 result.report s.underway.length ∧
      result.report.stats.messages = 2 ∧ s.underway.length = 2 ∧ result.allDelivered = false := by
  obtain ⟨-, -, -, -, -, -, s, result, -, hrun, -, -, haccounts, hall⟩ := (accounts_for_expected hasty Random.Stream).2 4
    (by decide) rfl (by decide)
  have hfound : ((hasty.run Random.Stream true).toOption.map fun r => r.report.stats.messages) = some 2 := by
    decide +kernel
  rw [hrun] at hfound
  have hmessages : result.report.stats.messages = 2 := Option.some.inj hfound
  have hlate : s.underway.length = 2 := by
    have hsum := haccounts.messages
    rw [hmessages] at hsum
    have htwo : (2 : UInt64).toNat = 2 := rfl
    have hfour : (4 : UInt64).toNat = 4 := rfl
    omega
  refine ⟨s, result, hrun, haccounts, hmessages, hlate, ?_⟩
  rw [← Bool.not_eq_true, hall, ← List.length_eq_zero_iff, hlate]
  decide

end Scenario

end VirtualMesh

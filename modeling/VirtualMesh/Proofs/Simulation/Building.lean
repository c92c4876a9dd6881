import VirtualMesh.Proofs.Simulation.Touching

/-!
# The mesh that is built

A mesh on `n` places has a peer from each of them to each other one. Whoever looks for a peer, place by place, by its
two ends or in the order of the mesh, finds the same `n * (n - 1)` peers, each for one pair of places. What happens to
one of them does not show in another.
-/

namespace VirtualMesh

namespace Mesh

/-- What a mesh on `n` places shows of its peers. -/
structure Complete (m : Mesh) (n : Nat) : Prop where
  size : m.size = n
  peersOf : ∀ place, place < n → ∃ row, m.peersOf place = .ok row ∧
    row.map Prod.fst = (List.range n).filter fun target => target ≠ place
  peersOf_error : ∀ place, n ≤ place → m.peersOf place = .error (.peerNotFound place n)
  peer_eq_ok : ∀ place target p, m.peer place target = .ok p ↔ ∃ row, m.peersOf place = .ok row ∧ (target, p) ∈ row
  peer_isOk : ∀ place target, (∃ p, m.peer place target = .ok p) ↔ place < n ∧ target < n ∧ place ≠ target
  peer_error : ∀ place target, ¬ (place < n ∧ target < n ∧ place ≠ target) →
    m.peer place target = .error (.peerNotFound (if n ≤ place then place else target) n)
  distinct : ∀ place target place' target' p, m.peer place target = .ok p → m.peer place' target' = .ok p →
    place' = place ∧ target' = target
  visited : ∀ p, p ∈ m.peers ↔ ∃ place target, m.peer place target = .ok p
  nodup : m.peers.Nodup
  count : m.peers.length = n * (n - 1) ∧ m.peerCount = n * (n - 1)

theorem peerCount_eq (m : Mesh) : m.peerCount = m.peers.length := by
  rw [peers, List.length_map, List.length_flatten]
  rfl

/-- In a row that names each target once, a search for a target finds its entry. -/
theorem find?_target {row : List (Nat × Nat)} (hrow : (row.map Prod.fst).Nodup) {target p : Nat} :
    row.find? (fun x => x.1 = target) = some (target, p) ↔ (target, p) ∈ row := by
  constructor
  · exact List.mem_of_find?_eq_some
  · intro hmem
    cases hfind : row.find? fun x => x.1 = target with
    | none =>
      have hne := List.find?_eq_none.1 hfind _ hmem
      simp at hne
    | some x =>
      have htarget : x.1 = target := by simpa using List.find?_some hfind
      rw [List.inj_on_of_nodup_map hrow (List.mem_of_find?_eq_some hfind) hmem htarget]

section
variable {α : Type} (engines : List α) (first : Nat)

def rowOf (place : Nat) : List (Nat × Nat) :=
  ((others engines place).map Prod.snd).zipIdx (first + place * (engines.length - 1))

theorem map_fst_rowOf (place : Nat) :
    (rowOf engines first place).map Prod.fst = (List.range engines.length).filter fun target => target ≠ place := by
  rw [rowOf, List.zipIdx_map_fst, map_snd_others]

theorem nodup_rowOf (place : Nat) : ((rowOf engines first place).map Prod.fst).Nodup := by
  rw [map_fst_rowOf]
  exact List.nodup_range.filter _

theorem exists_mem_rowOf {place target : Nat} :
    (∃ p, (target, p) ∈ rowOf engines first place) ↔ target < engines.length ∧ place ≠ target := by
  have hfst : (∃ p, (target, p) ∈ rowOf engines first place) ↔ target ∈ (rowOf engines first place).map Prod.fst := by
    simp
  rw [hfst, map_fst_rowOf, List.mem_filter, List.mem_range, decide_eq_true_eq]
  exact and_congr_right fun _ => ne_comm

variable {engines first}

/-- The numbers in the row of a place are those from its first one on, one for each other place. -/
theorem bounds_of_mem_rowOf {place : Nat} (hplace : place < engines.length) {x : Nat × Nat}
    (hx : x ∈ rowOf engines first place) : ∃ k, k < engines.length - 1 ∧
      x.2 = first + place * (engines.length - 1) + k ∧ ((others engines place).map Prod.snd)[k]? = some x.1 := by
  obtain ⟨hle, hget⟩ := List.mem_zipIdx_iff_le_and_getElem?_sub.1 hx
  have hlt := (List.getElem?_eq_some_iff.1 hget).1
  rw [List.length_map, length_others hplace] at hlt
  exact ⟨_, hlt, by omega, hget⟩

/-- No two rows have a peer in common, and none has one twice. -/
theorem eq_of_mem_rowOf {place place' target target' p : Nat} (hplace : place < engines.length)
    (hplace' : place' < engines.length) (h : (target, p) ∈ rowOf engines first place)
    (h' : (target', p) ∈ rowOf engines first place') : place' = place ∧ target' = target := by
  obtain ⟨k, hk, hp, htarget⟩ := bounds_of_mem_rowOf hplace h
  obtain ⟨k', hk', hp', htarget'⟩ := bounds_of_mem_rowOf hplace' h'
  have hpos : 0 < engines.length - 1 := Nat.lt_of_le_of_lt (Nat.zero_le k) hk
  have hsame : (engines.length - 1) * place' + k' = (engines.length - 1) * place + k := by
    rw [Nat.mul_comm _ place, Nat.mul_comm _ place']
    change p = _ at hp
    change p = _ at hp'
    omega
  obtain rfl : place' = place := by
    have hquotient := congrArg (· / (engines.length - 1)) hsame
    simpa [Nat.mul_add_div hpos, Nat.div_eq_of_lt hk, Nat.div_eq_of_lt hk'] using hquotient
  obtain rfl : k' = k := Nat.add_left_cancel hsame
  exact ⟨rfl, Option.some.inj (htarget'.symm.trans htarget)⟩

/-! ## What a numbered mesh shows -/

theorem size_number : (number engines first).size = engines.length := by simp [size, number]

theorem peersOf_number {place : Nat} (hplace : place < engines.length) :
    (number engines first).peersOf place = .ok (rowOf engines first place) := by
  have hrow : (number engines first).rows[place]? = some (rowOf engines first place) := by
    simp [number, rowOf, hplace]
  rw [peersOf, hrow]

theorem peersOf_number_of_le {place : Nat} (hplace : engines.length ≤ place) :
    (number engines first).peersOf place = .error (.peerNotFound place engines.length) := by
  have hrow : (number engines first).rows[place]? = none := by simp [number, hplace]
  rw [peersOf, hrow, size_number]

theorem lt_of_peersOf {place : Nat} {row : List (Nat × Nat)} (h : (number engines first).peersOf place = .ok row) :
    place < engines.length ∧ row = rowOf engines first place := by
  rcases Nat.lt_or_ge place engines.length with hplace | hplace
  · rw [peersOf_number hplace] at h
    exact ⟨hplace, (Except.ok.inj h).symm⟩
  · rw [peersOf_number_of_le hplace] at h
    cases h

theorem peer_number_eq_ok {place target p : Nat} : (number engines first).peer place target = .ok p ↔
    place < engines.length ∧ (target, p) ∈ rowOf engines first place := by
  rcases Nat.lt_or_ge place engines.length with hplace | hplace
  · simp only [peer, peersOf_number hplace]
    rw [← find?_target (nodup_rowOf engines first place)]
    cases hfind : (rowOf engines first place).find? fun x => x.1 = target with
    | none => simp
    | some x =>
      have htarget : x.1 = target := by simpa using List.find?_some hfind
      simp [hplace, Prod.ext_iff, htarget]
  · rw [peer, peersOf_number_of_le hplace]
    simp [Nat.not_lt.2 hplace]

theorem exists_peer_number {place target : Nat} : (∃ p, (number engines first).peer place target = .ok p) ↔
    place < engines.length ∧ target < engines.length ∧ place ≠ target := by
  simp only [peer_number_eq_ok, exists_and_left, exists_mem_rowOf]

theorem peer_number_eq_error {place target : Nat}
    (h : ¬ (place < engines.length ∧ target < engines.length ∧ place ≠ target)) :
    (number engines first).peer place target =
      .error (.peerNotFound (if engines.length ≤ place then place else target) engines.length) := by
  rcases Nat.lt_or_ge place engines.length with hplace | hplace
  · cases hpeer : (number engines first).peer place target with
    | ok p => exact absurd (exists_peer_number.1 ⟨p, hpeer⟩) h
    | error e =>
      rw [peer, peersOf_number hplace] at hpeer
      simp only at hpeer
      split at hpeer
      · cases hpeer
      · rw [← hpeer, size_number, if_neg (Nat.not_le.2 hplace)]
  · rw [peer, peersOf_number_of_le hplace, if_pos hplace]

theorem mem_peers_number {p : Nat} :
    p ∈ (number engines first).peers ↔ ∃ place target, (number engines first).peer place target = .ok p := by
  constructor
  · intro hp
    obtain ⟨place, row, hrow, hp⟩ := mem_peers.1 hp
    obtain ⟨⟨target, _⟩, hx, rfl⟩ := List.mem_map.1 hp
    obtain ⟨hplace, rfl⟩ := rows_number engines first hrow
    exact ⟨place, target, peer_number_eq_ok.2 ⟨hplace, hx⟩⟩
  · rintro ⟨place, target, hp⟩
    exact mem_peers_of_peer hp

theorem complete_number : (number engines first).Complete engines.length where
  size := size_number
  peersOf place hplace := ⟨_, peersOf_number hplace, map_fst_rowOf engines first place⟩
  peersOf_error place hplace := peersOf_number_of_le hplace
  peer_eq_ok place target p := by
    rw [peer_number_eq_ok]
    constructor
    · rintro ⟨hplace, hmem⟩
      exact ⟨_, peersOf_number hplace, hmem⟩
    · rintro ⟨row, hrow, hmem⟩
      obtain ⟨hplace, rfl⟩ := lt_of_peersOf hrow
      exact ⟨hplace, hmem⟩
  peer_isOk _ _ := exists_peer_number
  peer_error _ _ := peer_number_eq_error
  distinct place target place' target' p h h' := by
    obtain ⟨hplace, hmem⟩ := peer_number_eq_ok.1 h
    obtain ⟨hplace', hmem'⟩ := peer_number_eq_ok.1 h'
    exact eq_of_mem_rowOf hplace hplace' hmem hmem'
  visited _ := mem_peers_number
  nodup := nodup_peers_number engines first
  count := by
    rw [peerCount_eq, peers_number, List.length_range']
    exact ⟨rfl, rfl⟩

end

end Mesh

variable {ε ρ : Type}

namespace Simulation

variable [NormalSource ρ]

theorem mapM_require {α : Type} {l : List Nat} {xs : List α} (h : ∀ i ∈ l, i < xs.length) :
    ∃ found, (l.mapM fun i => require xs[i]?) = .ok found := by
  induction l with
  | nil => exact ⟨[], rfl⟩
  | cons i l ih =>
    obtain ⟨hi, hl⟩ := List.forall_mem_cons.1 h
    obtain ⟨found, hfound⟩ := ih hl
    refine ⟨xs[i] :: found, ?_⟩
    simp only [List.mapM_cons, List.getElem?_eq_getElem hi, hfound]
    rfl

theorem meshPeers_of_peer {engines : List Nat} {first source place target p : Nat} {config : Config}
    (h : (Mesh.number engines first).peer place target = .ok p) : ∃ n engine, p = first + n ∧
      engines[target]? = some engine ∧ (meshPeers engines source config)[n]? = some (.fresh engine source config) := by
  obtain ⟨hplace, hmem⟩ := Mesh.peer_number_eq_ok.1 h
  have hrow : (Mesh.number engines first).rows[place]? = some (Mesh.rowOf engines first place) := by
    simp [Mesh.number, Mesh.rowOf, hplace]
  obtain ⟨engine, n, hn, htarget, hengine, -⟩ := Mesh.targets_of_row hrow hmem
  exact ⟨n, engine, hn, hengine, by rw [meshPeers, List.getElem?_map, htarget]; rfl⟩

variable [Consensus ε] {s : Simulation ε ρ} {chosen : Option (List Nat)} {engines : List Nat} {config : Config}

theorem apply_buildMesh (hchosen : chosen.getD (List.range s.world.engines.length) = engines)
    (hengines : ∀ i ∈ engines, i < s.world.engines.length) : s.apply (.buildMesh config chosen) =
      match s.world.buildMesh engines config with
      | .error e => .ok (.failed e, s)
      | .ok w => .ok (.done, s.withWorld w) := by
  obtain ⟨found, hfound⟩ := mapM_require hengines
  simp only [apply, hchosen, hfound]
  show (match s.world.buildMesh engines config with
    | .error e => pure (Answer.failed e, s)
    | .ok w => pure (Answer.done, s.withWorld w)) = _
  cases s.world.buildMesh engines config <;> rfl

/-- A mesh on fewer than two engines is refused, whatever the configuration, and one with a configuration that is not
valid is refused for it; then nothing changes. Any other mesh is built, and puts nothing into the queue. It is complete,
and for each two places it has a new peer that leads to the engine at the second of them. To close the peer between two
places, or to run its tasks, leaves the peer between any two others as it is; and whatever is done later, a peer changes
only when something is sent through it, when it is closed or when a task of it is run. -/
theorem mesh_topology (hchosen : chosen.getD (List.range s.world.engines.length) = engines)
    (hengines : ∀ i ∈ engines, i < s.world.engines.length) :
    (engines.length < 2 → s.apply (.buildMesh config chosen) = .ok (.failed (.tooSmall 2 engines.length), s)) ∧
    (∀ error, 2 ≤ engines.length → config.validate = .error error →
      s.apply (.buildMesh config chosen) = .ok (.failed error, s)) ∧
    (2 ≤ engines.length → config.validate = .ok () →
      ∃ m s', s.apply (.buildMesh config chosen) = .ok (.done, s') ∧ s'.queue = s.queue ∧ s'.world.mesh = some m ∧
        m.Complete engines.length ∧
        (∀ place target p, m.peer place target = .ok p → s.world.peers.length ≤ p ∧ ∃ engine,
          engines[target]? = some engine ∧
            s'.world.peers[p]? = some (.fresh engine s.world.sources.length config)) ∧
        (∀ place target place' target' p q, m.peer place target = .ok p → m.peer place' target' = .ok q →
          (place, target) ≠ (place', target') →
            (∀ w : World ε ρ, (w.close p).2.peers[q]? = w.peers[q]?) ∧
            ∀ (task : Task) (clock : Instant) (w : World ε ρ) (r : Reaction Task Outcome (World ε ρ)), task.peer = p →
              World.handler task clock w = .ok r → r.world.peers[q]? = w.peers[q]?) ∧
        ∀ (before after : List Command) (answers answers' : List Answer) (t t' : Simulation ε ρ),
          s'.run before = .ok (answers, t) → t.run after = .ok (answers', t') →
            ∀ q ∈ m.peers, q ∉ t.collect touched after → t'.world.peers[q]? = t.world.peers[q]?) := by
  rw [apply_buildMesh hchosen hengines]
  refine ⟨fun hfew => ?_, fun error henough hflaw => ?_, fun henough hvalid => ?_⟩
  · rw [World.buildMesh, if_pos (show engines.length < Mesh.minSize from hfew)]
    rfl
  · rw [World.buildMesh, if_neg (show ¬ engines.length < Mesh.minSize from Nat.not_lt.2 henough), hflaw]
  · obtain ⟨w, hw⟩ : ∃ w, s.world.buildMesh engines config = .ok w := by
      rw [World.buildMesh, if_neg (show ¬ engines.length < Mesh.minSize from Nat.not_lt.2 henough), hvalid]
      exact ⟨_, rfl⟩
    obtain ⟨-, rfl⟩ := buildMesh_eq_ok hw
    rw [hw]
    refine ⟨_, _, rfl, rfl, rfl, Mesh.complete_number, fun place target p hp => ?_, ?_, ?_⟩
    · obtain ⟨n, engine, rfl, hengine, hpeer⟩ := meshPeers_of_peer hp
      refine ⟨Nat.le_add_right _ _, engine, hengine, ?_⟩
      simp only [Machine.world_withWorld]
      rw [List.getElem?_append_right (Nat.le_add_right _ _), Nat.add_sub_cancel_left, hpeer]
    · intro place target place' target' p q hp hq hne
      have hpq : p ≠ q := by
        rintro rfl
        obtain ⟨rfl, rfl⟩ := Mesh.complete_number.distinct place target place' target' p hp hq
        exact hne rfl
      refine ⟨fun w => World.getElem?_peers_close w hpq, fun task clock w r htask hr => ?_⟩
      exact World.getElem?_peers_handler hr (htask ▸ hpq)
    · intro before after answers answers' t t' hbefore hafter q hq hnot
      -- the peers of the mesh are there from the start, so no later one takes the number of one of them
      have hlt := Mesh.lt_of_mem_number hq
      refine (altersOnly_run hafter).getElem?_eq q ?_ hnot
      refine Nat.lt_of_lt_of_le ?_ (altersOnly_run hbefore).length_le
      simpa [meshPeers] using hlt

/-- One engine at three places; the peers from the first place to the others are closed apart. -/
theorem mesh_topology_thrice :
    soloRecorder.apply (.buildMesh jittery (some [0])) = .ok (.failed (.tooSmall 2 1), soloRecorder) ∧
    ∃ m s', soloRecorder.apply (.buildMesh jittery (some [0, 0, 0])) = .ok (.done, s') ∧ s'.queue = [] ∧
      s'.world.mesh = some m ∧ m.peerCount = 6 ∧ m.peer 1 1 = .error (.peerNotFound 1 3) ∧
      m.peer 3 1 = .error (.peerNotFound 3 3) ∧ m.peer 1 3 = .error (.peerNotFound 3 3) ∧
      ∃ p q peer, m.peer 0 1 = .ok p ∧ m.peer 0 2 = .ok q ∧ s'.world.peers[q]? = some peer ∧ peer.engine = 0 ∧
        (s'.world.close p).2.peers[q]? = some peer := by
  obtain ⟨hfew, -, -⟩ := @mesh_topology _ _ _ _ soloRecorder (some [0]) [0] jittery rfl (by decide)
  obtain ⟨-, -, hbuild⟩ := @mesh_topology _ _ _ _ soloRecorder (some [0, 0, 0]) [0, 0, 0] jittery rfl (by decide)
  obtain ⟨m, s', happly, hqueue, hmesh, hcomplete, hpeers, happart, -⟩ := hbuild (by decide) rfl
  obtain ⟨p, hp⟩ := (hcomplete.peer_isOk 0 1).2 (by decide)
  obtain ⟨q, hq⟩ := (hcomplete.peer_isOk 0 2).2 (by decide)
  obtain ⟨-, engine, -, hfirst⟩ := hpeers 0 1 p hp
  obtain ⟨-, engine', hengine', hsecond⟩ := hpeers 0 2 q hq
  obtain rfl : 0 = engine' := by simpa using hengine'
  obtain ⟨hclose, -⟩ := happart 0 1 0 2 p q hp hq (by decide)
  have hkept := (hclose s'.world).trans hsecond
  exact ⟨hfew (by decide), m, s', happly, hqueue, hmesh, hcomplete.count.2,
    hcomplete.peer_error 1 1 (by decide), hcomplete.peer_error 3 1 (by decide), hcomplete.peer_error 1 3 (by decide),
    p, q, _, hp, hq, hsecond, rfl, hkept⟩

end Simulation

end VirtualMesh

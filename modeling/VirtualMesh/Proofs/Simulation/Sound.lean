import VirtualMesh.Proofs.Simulation.Step

/-!
# Sound simulations

What holds of every simulation that commands lead to: its world is well-formed, every task is
for a peer that is there, and the accounts of its machine balance and are punctual. A peer keeps
the engine, source and configuration that it was made with.
-/

namespace VirtualMesh

/-- The peer as it was made. -/
def Peer.origin (p : Peer) : Peer := .fresh p.engine p.source p.config

theorem Ticker.fireAt_of_mem_arm {τ : Type} {interval : Duration} {task : τ} {clock : Instant}
    {s : Submission τ} (h : s ∈ arm interval task clock) :
    clock.nanos + interval.nanos = s.fireAt.nanos ∧ s.task = task := by
  unfold arm at h
  split at h
  · cases h
  · rename_i t ht
    rw [List.mem_singleton.1 h]
    exact ⟨(Instant.nanos_of_add? ht).symm, rfl⟩

namespace World

variable {ε ρ : Type} {w : World ε ρ}

def origins (w : World ε ρ) : List Peer := w.peers.map Peer.origin

@[simp] theorem length_origins : w.origins.length = w.peers.length := List.length_map _

theorem origin_of_peer {p : Nat} {peer : Peer} (hp : w.peers[p]? = some peer) :
    w.origins[p]? = some peer.origin := by
  rw [origins, List.getElem?_map, hp]
  rfl

theorem exists_of_origin {p : Nat} {origin : Peer} (ho : w.origins[p]? = some origin) :
    ∃ peer, w.peers[p]? = some peer ∧ peer.origin = origin := by
  rw [origins, List.getElem?_map] at ho
  exact Option.map_eq_some_iff.1 ho

/-- What a changed peer has in common with the old one, the peers have in common. -/
theorem map_peers_setPeer {α : Type} (f : Peer → α) {p : Nat} {old new : Peer}
    (hp : w.peers[p]? = some old) (hf : f new = f old) :
    (w.setPeer p new).peers.map f = w.peers.map f := by
  obtain ⟨hlt, rfl⟩ := List.getElem?_eq_some_iff.1 hp
  rw [setPeer, List.map_set, hf, ← List.getElem_map f (h := by simpa using hlt)]
  exact List.set_getElem_self _

theorem origins_setPeer {p : Nat} {old new : Peer} (hp : w.peers[p]? = some old)
    (ho : new.origin = old.origin) : (w.setPeer p new).origins = w.origins :=
  map_peers_setPeer Peer.origin hp ho

namespace WellFormed

theorem ofEngines (engines : List ε) : (World.ofEngines engines : World ε ρ).WellFormed where
  handles _ h := nomatch h
  links _ h := nomatch h
  linked _ h := nomatch h
  numbered := .nil
  mesh _ h := nomatch h
  shared _ h := nomatch h
  sources _ h := nomatch h
  engines _ h := nomatch h
  valid _ h := nomatch h

theorem setEngine (h : w.WellFormed) (i : Nat) (x : ε) : (w.setEngine i x).WellFormed where
  handles := h.handles
  links := h.links
  linked := h.linked
  numbered := h.numbered
  mesh := h.mesh
  shared := h.shared
  sources := h.sources
  engines p hp := by simpa [World.setEngine] using h.engines p hp
  valid := h.valid

theorem setSource (h : w.WellFormed) (n : Nat) (r : ρ) : (w.setSource n r).WellFormed where
  handles := h.handles
  links := h.links
  linked := h.linked
  numbered := h.numbered
  mesh := h.mesh
  shared := by simpa [World.setSource] using h.shared
  sources p hp := by simpa [World.setSource] using h.sources p hp
  engines := h.engines
  valid := h.valid

theorem setPeer (h : w.WellFormed) {p : Nat} {old new : Peer} (hp : w.peers[p]? = some old)
    (ho : new.origin = old.origin) : (w.setPeer p new).WellFormed := by
  have hold : old ∈ w.peers := List.mem_of_getElem? hp
  have hlen : (w.setPeer p new).peers.length = w.peers.length := List.length_set
  simp only [Peer.origin, Peer.fresh, Peer.mk.injEq, and_true] at ho
  obtain ⟨he, hs, hc⟩ := ho
  have hmem : ∀ q ∈ (w.setPeer p new).peers, q ∈ w.peers ∨ q = new := fun q hq =>
    List.mem_or_eq_of_mem_set hq
  constructor
  case handles => rw [hlen]; exact h.handles
  case links => rw [hlen]; exact h.links
  case linked => exact h.linked
  case numbered => exact h.numbered
  case mesh => rw [hlen]; exact h.mesh
  case shared => exact h.shared
  case sources =>
    intro q hq
    rcases hmem q hq with hq | rfl
    · exact h.sources q hq
    · rw [hs]; exact h.sources old hold
  case engines =>
    intro q hq
    rcases hmem q hq with hq | rfl
    · exact h.engines q hq
    · rw [he]; exact h.engines old hold
  case valid =>
    intro q hq
    rcases hmem q hq with hq | rfl
    · exact h.valid q hq
    · rw [hc]; exact h.valid old hold

theorem link (h : w.WellFormed) (owner : Nat) {peers : List Nat}
    (hp : ∀ p ∈ peers, p < w.peers.length) : (w.link owner peers).2.WellFormed where
  handles := h.handles
  links l hl := by
    rcases List.mem_append.1 hl with hl | hl
    · exact h.links l hl
    · obtain ⟨x, hx, rfl⟩ := List.mem_map.1 hl
      exact hp x.1 (List.fst_mem_of_mem_zipIdx hx)
  linked l hl := by
    rcases List.mem_append.1 hl with hl | hl
    · exact Nat.lt_of_lt_of_le (h.linked l hl) (Nat.le_add_right _ _)
    · obtain ⟨x, hx, rfl⟩ := List.mem_map.1 hl
      exact List.snd_lt_add_of_mem_zipIdx hx
  numbered := by
    refine List.pairwise_append.2 ⟨h.numbered, ?_, ?_⟩
    · rw [List.pairwise_map, ← List.pairwise_map (f := Prod.snd) (R := (· < ·)), List.zipIdx_map_snd]
      exact List.pairwise_lt_range'
    · intro l hl m hm
      obtain ⟨x, hx, rfl⟩ := List.mem_map.1 hm
      exact Nat.lt_of_lt_of_le (h.linked l hl) (List.le_snd_of_mem_zipIdx hx)
  mesh := h.mesh
  shared := h.shared
  sources := h.sources
  engines := h.engines
  valid := h.valid

theorem addPeers (h : w.WellFormed) {peers : List Peer}
    (hp : ∀ p ∈ peers, p = .fresh p.engine p.source p.config ∧ p.engine < w.engines.length ∧
      p.source < w.sources.length ∧ p.config.validate = .ok ()) :
    { w with peers := w.peers ++ peers }.WellFormed := by
  have hle : w.peers.length ≤ (w.peers ++ peers).length := by simp
  constructor
  case handles => exact fun p hm => Nat.lt_of_lt_of_le (h.handles p hm) hle
  case links => exact fun l hl => Nat.lt_of_lt_of_le (h.links l hl) hle
  case linked => exact h.linked
  case numbered => exact h.numbered
  case mesh => exact fun m hm p hp => Nat.lt_of_lt_of_le (h.mesh m hm p hp) hle
  case shared => exact h.shared
  case sources =>
    intro q hq
    rcases List.mem_append.1 hq with hq | hq
    · exact h.sources q hq
    · exact (hp q hq).2.2.1
  case engines =>
    intro q hq
    rcases List.mem_append.1 hq with hq | hq
    · exact h.engines q hq
    · exact (hp q hq).2.1
  case valid =>
    intro q hq
    rcases List.mem_append.1 hq with hq | hq
    · exact h.valid q hq
    · exact (hp q hq).2.2.2

theorem addSource (h : w.WellFormed) (r : ρ) : { w with sources := w.sources ++ [r] }.WellFormed where
  handles := h.handles
  links := h.links
  linked := h.linked
  numbered := h.numbered
  mesh := h.mesh
  shared n hn := by simpa using Nat.lt_succ_of_lt (h.shared n hn)
  sources p hp := by simpa using Nat.lt_succ_of_lt (h.sources p hp)
  engines := h.engines
  valid := h.valid

end WellFormed

end World

namespace Simulation

variable {ε ρ : Type}

structure Sound (s : Simulation ε ρ) : Prop where
  world : s.world.WellFormed
  targets : ∀ x ∈ s.submitted, x.2.task.peer < s.world.peers.length
  ledger : s.Ledger
  punctual : s.Punctual

namespace Sound

variable {s : Simulation ε ρ}

theorem start (clock : Instant) (engines : List ε) :
    (Simulation.start clock engines : Simulation ε ρ).Sound where
  world := .ofEngines engines
  targets _ hx := nomatch hx
  ledger := .startingAt ..
  punctual := .startingAt ..

theorem withWorld (h : s.Sound) {w : World ε ρ} (hw : w.WellFormed)
    (hle : s.world.peers.length ≤ w.peers.length) : Sound (s.withWorld w) where
  world := hw
  targets x hx := Nat.lt_of_lt_of_le (h.targets x hx) hle
  ledger := h.ledger.withWorld w
  punctual := h.punctual.withWorld w

theorem popped (h : s.Sound) {e : Entry Task} {rest : List (Entry Task)} (hq : s.queue = e :: rest)
    (outcome : Outcome) {w : World ε ρ} (hw : w.WellFormed)
    (hle : s.world.peers.length ≤ w.peers.length) : Sound (s.popped e rest outcome w) where
  world := hw
  targets := by
    rw [Machine.submitted_popped]
    exact fun x hx => Nat.lt_of_lt_of_le (h.targets x hx) hle
  ledger := h.ledger.popped hq outcome w
  punctual := h.punctual.popped h.ledger hq outcome w

theorem putAll (h : s.Sound) {ss : List (Submission Task)}
    (hs : ∀ x ∈ ss, s.clock.nanos ≤ x.fireAt.nanos ∧ x.task.peer < s.world.peers.length) :
    Sound (Machine.putAll ss s) where
  world := by rw [Machine.world_putAll]; exact h.world
  targets := by
    rw [Machine.world_putAll, Machine.submitted_putAll]
    intro x hx
    rcases List.mem_append.1 hx with hx | hx
    · exact h.targets x hx
    · obtain ⟨y, hy, rfl⟩ := List.mem_map.1 hx
      exact (hs y.1 (List.fst_mem_of_mem_zipIdx hy)).2
  ledger := h.ledger.putAll ss
  punctual := h.punctual.putAll h.ledger fun x hx => (hs x hx).1

theorem put (h : s.Sound) {x : Submission Task} (hat : s.clock.nanos ≤ x.fireAt.nanos)
    (htarget : x.task.peer < s.world.peers.length) : Sound (Machine.put x s) := by
  rw [← Machine.putAll_nil (Machine.put x s), ← Machine.putAll_cons]
  exact h.putAll (List.forall_mem_singleton.2 ⟨hat, htarget⟩)

theorem arm (h : s.Sound) {p : Nat} (hp : p < s.world.peers.length) (interval : Duration) :
    Sound (Machine.putAll (Ticker.arm interval (Task.tick p) s.clock) s) := by
  refine h.putAll ?_
  intro x hx
  obtain ⟨hat, htask⟩ := Ticker.fireAt_of_mem_arm hx
  exact ⟨by omega, by rw [htask]; exact hp⟩

theorem target_of_queue (h : s.Sound) {e : Entry Task} (he : e ∈ s.queue) :
    e.task.peer < s.world.peers.length := by
  obtain ⟨clock, hx⟩ := h.ledger.submitted_of_queue he
  exact h.targets _ hx

theorem target_of_fired (h : s.Sound) {x : Instant × Entry Task × Outcome} (hx : x ∈ s.fired) :
    x.2.1.task.peer < s.world.peers.length := by
  obtain ⟨clock, hx⟩ := h.ledger.submitted_of_fired hx
  exact h.targets _ hx

end Sound

variable [NormalSource ρ] [Consensus ε]

theorem Step.sound {s s' : Simulation ε ρ} {a : Action} (h : s.Sound) (hstep : Step s a s') :
    s'.Sound := by
  cases hstep with
  | wait hdue =>
    exact ⟨h.world, h.targets, h.ledger.moveTo _, h.punctual.moveTo h.ledger hdue⟩
  | deliver hq ht hp hd hs hx =>
    refine h.popped hq _ (World.WellFormed.setEngine (h.world.setPeer hp ?_) _ _) ?_
    · rfl
    · simp [World.setEngine, World.setPeer]
  | drop hq ht hp hd hs =>
    refine h.popped hq _ (h.world.setPeer hp ?_) ?_
    · rfl
    · simp [World.setPeer]
  | @tick e rest p peer x hq ht halive hp hopen hx =>
    have hw := h.world.setEngine peer.engine (Consensus.update x).1
    have hpop := h.popped hq (.ticked .armed) hw (Nat.le_refl _)
    exact hpop.arm (List.getElem?_eq_some_iff.1 hp).1 _
  | idle hq ht ho => exact h.popped hq _ h.world (Nat.le_refl _)
  | @send p payload peer source fireAt hp hsource hat =>
    have hw : World.WellFormed ((s.world.setSource peer.source (peer.latency.sample source).2).setPeer p
        { peer with inFlight := peer.inFlight + 1 }) :=
      (h.world.setSource peer.source (peer.latency.sample source).2).setPeer hp rfl
    have hlt := (List.getElem?_eq_some_iff.1 hp).1
    have hsent := h.withWorld hw (by simp [World.setSource, World.setPeer])
    refine hsent.put ?_ ?_
    · have := Instant.nanos_of_add? hat
      show s.clock.nanos ≤ fireAt.nanos
      omega
    · show p < (s.world.peers.set p _).length
      rwa [List.length_set]
  | update hp hopen hx =>
    exact (h.withWorld (h.world.setEngine _ _) (Nat.le_refl _)).arm (List.getElem?_eq_some_iff.1 hp).1 _
  | close hp =>
    refine h.withWorld (h.world.setPeer hp ?_) ?_
    · rfl
    · simp [World.setPeer]
  | receive | updateEngine | propose | reject =>
    exact h.withWorld (h.world.setEngine _ _) (Nat.le_refl _)
  | attach hpeers hx hy =>
    exact h.withWorld ((h.world.link _ hpeers).setEngine _ _) (Nat.le_refl _)
  | unlink hlinks =>
    refine h.withWorld { h.world with links := ?_, linked := ?_, numbered := ?_ } (Nat.le_refl _)
    · exact fun l hl => h.world.links l (hlinks.subset hl)
    · exact fun l hl => h.world.linked l (hlinks.subset hl)
    · exact h.world.numbered.sublist hlinks
  | addSource => exact h.withWorld (h.world.addSource _) (Nat.le_refl _)
  | addPeers hpeers => exact h.withWorld (h.world.addPeers hpeers) (by simp)
  | hold hhandles hshared =>
    exact h.withWorld { h.world with handles := hhandles, shared := hshared } (Nat.le_refl _)
  | setMesh hmesh => exact h.withWorld { h.world with mesh := hmesh } (Nat.le_refl _)

/-- Peers are only added, and keep what they were made with. -/
theorem Step.origins_eq {s s' : Simulation ε ρ} {a : Action} (hstep : Step s a s') :
    s'.world.origins = s.world.origins ++ a.added.map Peer.origin := by
  cases hstep with
  | deliver _ _ hp | drop _ _ hp | send hp | close hp =>
    refine (World.origins_setPeer hp ?_).trans (List.append_nil _).symm
    rfl
  | addPeers => exact List.map_append ..
  | tick | update =>
    rw [Machine.world_putAll]
    exact (List.append_nil _).symm
  | _ => exact (List.append_nil _).symm

theorem Step.origins_prefix {s s' : Simulation ε ρ} {a : Action} (hstep : Step s a s') :
    s.world.origins <+: s'.world.origins :=
  ⟨_, hstep.origins_eq.symm⟩

theorem Step.origins_getElem? {s s' : Simulation ε ρ} {a : Action} (hstep : Step s a s') {p : Nat}
    {origin : Peer} (hp : s.world.origins[p]? = some origin) : s'.world.origins[p]? = some origin := by
  obtain ⟨hlt, rfl⟩ := List.getElem?_eq_some_iff.1 hp
  exact List.prefix_iff_getElem?.1 hstep.origins_prefix p hlt

theorem Trace.sound {s s' : Simulation ε ρ} {as : List Action} (htrace : Trace s as s')
    (h : s.Sound) : s'.Sound :=
  htrace.induct (A := fun _ => True) (fun _ hs hstep => hstep.sound hs) (fun _ _ => trivial) h

theorem Trace.origins_prefix {s s' : Simulation ε ρ} {as : List Action} (htrace : Trace s as s') :
    s.world.origins <+: s'.world.origins := by
  induction htrace with
  | nil => exact List.prefix_rfl
  | cons hstep _ ih => exact hstep.origins_prefix.trans ih

end Simulation

end VirtualMesh

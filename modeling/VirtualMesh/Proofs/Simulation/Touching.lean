import VirtualMesh.Proofs.Scheduler.Picking
import VirtualMesh.Proofs.Simulation.Run

/-!
# What commands change

A command changes the records of the peers that it sends through, of those that it closes, and of those whose tasks it
runs. Every other peer stays as it is, with its statistics and whether it is closed, through any number of commands.
-/

namespace VirtualMesh

variable {ε ρ : Type}

/-- No peer is gone, and those that are not among `ps` are as before. -/
structure World.AltersOnly (ps : List Nat) (w w' : World ε ρ) : Prop where
  length_le : w.peers.length ≤ w'.peers.length
  getElem?_eq : ∀ q, q < w.peers.length → q ∉ ps → w'.peers[q]? = w.peers[q]?

namespace World

namespace AltersOnly

variable {ps qs : List Nat} {p : Nat} {w w₁ w₂ : World ε ρ}

theorem of_eq (h : w₁.peers = w.peers) : AltersOnly ps w w₁ where
  length_le := by rw [h]
  getElem?_eq _ _ _ := by rw [h]

theorem of_append {peers : List Peer} (h : w₁.peers = w.peers ++ peers) : AltersOnly ps w w₁ where
  length_le := by rw [h, List.length_append]; exact Nat.le_add_right _ _
  getElem?_eq q hq _ := by rw [h, List.getElem?_append_left hq]

theorem of_set {new : Peer} (h : w₁.peers = w.peers.set p new) : AltersOnly [p] w w₁ where
  length_le := by rw [h, List.length_set]
  getElem?_eq q _ hq := by
    rw [h]
    exact List.getElem?_set_ne fun hpq => hq (List.mem_singleton.2 hpq.symm)

theorem trans (h : AltersOnly ps w w₁) (h' : AltersOnly qs w₁ w₂) : AltersOnly (ps ++ qs) w w₂ where
  length_le := Nat.le_trans h.length_le h'.length_le
  getElem?_eq q hq hnot := by
    rw [List.mem_append, not_or] at hnot
    rw [h'.getElem?_eq q (Nat.lt_of_lt_of_le hq h.length_le) hnot.2, h.getElem?_eq q hq hnot.1]

end AltersOnly

theorem altersOnly_close (w : World ε ρ) (p : Nat) : AltersOnly [p] w (w.close p).2 := by
  cases hp : w.peers[p]? with
  | none => exact .of_eq (by simp only [close, hp])
  | some peer => exact .of_set (congrArg peers (close_eq hp))

theorem altersOnly_closeAll (w : World ε ρ) (ps : List Nat) : AltersOnly ps w (w.closeAll ps).2 := by
  induction ps generalizing w with
  | nil => exact .of_eq rfl
  | cons p ps ih => exact (altersOnly_close w p).trans (ih (w.close p).2)

theorem altersOnly_handler [Consensus ε] {task : Task} {clock : Instant} {w : World ε ρ}
    {r : Reaction Task Outcome (World ε ρ)} (h : handler task clock w = .ok r) : AltersOnly [task.peer] w r.world := by
  rcases peers_handler h with hpeers | ⟨new, hpeers⟩
  · exact .of_eq hpeers
  · exact .of_set hpeers

end World

namespace Simulation

open World (AltersOnly)

variable [NormalSource ρ] {s s' : Simulation ε ρ}

/-! ## Messages, tasks and links -/

theorem altersOnly_send {p : Nat} {payload : Bytes} (h : s.send p payload = .ok s') :
    AltersOnly [p] s.world s'.world := by
  cases hp : s.world.peers[p]? with
  | none =>
    simp only [send, hp] at h
    cases h
    exact .of_eq rfl
  | some peer =>
    cases hsource : s.world.sources[peer.source]? with
    | none =>
      simp only [send, hp, hsource] at h
      cases h
      exact .of_eq rfl
    | some source =>
      rw [send_eq hp hsource] at h
      split at h
      · cases h
      · cases h
        exact .of_set rfl

theorem altersOnly_sendAll {messages : List (Nat × Bytes)} (h : s.sendAll messages = .ok s') :
    AltersOnly (messages.map Prod.fst) s.world s'.world := by
  induction messages generalizing s with
  | nil => cases h; exact .of_eq rfl
  | cons m ms ih =>
    simp only [sendAll, List.foldlM_cons, bind_eq_ok] at h
    obtain ⟨s₁, hsend, hrest⟩ := h
    exact (altersOnly_send hsend).trans (ih hrest)

variable [Consensus ε]

omit [NormalSource ρ] in
theorem peers_updateAll (s : Simulation ε ρ) (ps : List Nat) : (s.updateAll ps).world.peers = s.world.peers := by
  induction ps generalizing s with
  | nil => rfl
  | cons p ps ih => exact (ih (s.update p).2).trans (peers_update s p)

theorem altersOnly_propose {engine : Nat} {state : State} (h : s.propose engine state = .ok s') :
    AltersOnly ((s.flood engine state).map Prod.fst) s.world s'.world := by
  cases hx : s.world.engines[engine]? with
  | none =>
    simp only [propose, hx] at h
    cases h
    exact .of_eq rfl
  | some x =>
    simp only [propose, hx, bind_eq_ok] at h
    obtain ⟨⟨y, outgoing⟩, hy, h⟩ := h
    have hengine : AltersOnly [] s.world (s.world.setEngine engine y) := .of_eq rfl
    simp only [flood, hx, hy]
    exact hengine.trans (altersOnly_sendAll h)

omit [NormalSource ρ] in
theorem peers_attachTo {engine : Nat} {ps : List Nat} (h : s.attachTo engine ps = some s') :
    s'.world.peers = s.world.peers := by
  simp only [attachTo, Option.bind_eq_bind, Option.bind_eq_some_iff, Option.pure_def, Option.some.injEq] at h
  obtain ⟨x, -, y, -, rfl⟩ := h
  rfl

omit [NormalSource ρ] in
theorem peers_wire (s : Simulation ε ρ) (engine : Nat) (rows : List (List (Nat × Nat))) :
    (s.wire engine rows).world.peers = s.world.peers := by
  induction rows generalizing s engine with
  | nil => rfl
  | cons row rows ih =>
    rw [wire, ih]
    cases hattach : s.attachTo engine (row.map Prod.snd) with
    | none => rfl
    | some s₁ => exact peers_attachTo hattach

omit [NormalSource ρ] in
theorem altersOnly_fires {xs : List (Pick Task Outcome (World ε ρ))} (h : Machine.Fires World.handler s xs s') :
    AltersOnly (xs.map fun x => x.entry.task.peer) s.world s'.world := by
  induction h with
  | nil => exact .of_eq rfl
  | cons _ hfire _ ih =>
    obtain ⟨r, hr, rfl⟩ := Machine.fire_eq_ok.1 hfire
    rw [Machine.world_putAll] at ih
    exact (World.altersOnly_handler hr).trans ih

/-! ## Commands -/

/-- The peers that a command sends through, closes, or runs tasks of. -/
def touched (s : Simulation ε ρ) : Command → List Nat
  | .time step => (World.dynamics.picks s (.time step)).map fun x => x.entry.task.peer
  | .close handle => (s.world.peerOfHandle handle).toList
  | .closeMesh => s.world.mesh.elim [] Mesh.peers
  | c => (s.sends c).map Prod.fst

omit [NormalSource ρ] in
theorem altersOnly_time {step : ClockStep} {n : Nat} (h : World.dynamics.step s step = .ok (n, s')) :
    AltersOnly (s.touched (.time step)) s.world s'.world := by
  rcases Dynamics.operate_cases (o := .time step) h with ⟨x, hx, -⟩ | ⟨-, -, s₁, hfires, rfl | ⟨t, rfl⟩⟩
  · cases hx
  · exact altersOnly_fires hfires
  · rw [Machine.world_moveTo]
    exact altersOnly_fires hfires

theorem altersOnly_apply {c : Command} {answer : Answer} (h : s.apply c = .ok (answer, s')) :
    AltersOnly (s.touched c) s.world s'.world := by
  cases c with
  | time step =>
    simp only [apply, bind_eq_ok, attempt_eq_ok, pure_eq_ok] at h
    obtain ⟨⟨ran, s₁⟩, hrun, heq⟩ := h
    cases heq
    exact altersOnly_time hrun
  | newPeer engine config shared =>
    obtain rfl | ⟨-, -, ⟨source, -, rfl⟩ | rfl⟩ := newPeer_cases h
    · exact .of_eq rfl
    · exact .of_append rfl
    · exact .of_append rfl
  | send handle payload =>
    simp only [apply, bind_eq_ok, require_eq_ok, attempt_eq_ok, pure_eq_ok] at h
    obtain ⟨p, hp, s₁, hsend, heq⟩ := h
    cases heq
    simp only [touched, sends, hp]
    exact altersOnly_send hsend
  | update handle =>
    simp only [apply, bind_eq_ok, require_eq_ok, pure_eq_ok] at h
    obtain ⟨p, hp, heq⟩ := h
    cases heq
    exact .of_eq (peers_update s p)
  | close handle =>
    simp only [apply, bind_eq_ok, require_eq_ok, pure_eq_ok] at h
    obtain ⟨p, hp, heq⟩ := h
    cases heq
    rw [touched, hp]
    exact World.altersOnly_close s.world p
  | propose handle state =>
    simp only [apply, bind_eq_ok, require_eq_ok, attempt_eq_ok, pure_eq_ok] at h
    obtain ⟨p, hp, peer, hpeer, s₁, hpropose, heq⟩ := h
    cases heq
    simp only [touched, sends, hp, Option.bind_some, hpeer]
    exact altersOnly_propose hpropose
  | proposeAt engine state =>
    simp only [apply, bind_eq_ok, require_eq_ok, attempt_eq_ok, pure_eq_ok] at h
    obtain ⟨x, hx, s₁, hpropose, heq⟩ := h
    cases heq
    exact altersOnly_propose hpropose
  | buildMesh config engines =>
    simp only [apply, bind_eq_ok] at h
    obtain ⟨es, hes, h⟩ := h
    split at h
    · rw [pure_eq_ok] at h
      cases h
      exact .of_eq rfl
    · rename_i w hw
      rw [pure_eq_ok] at h
      cases h
      obtain ⟨-, rfl⟩ := buildMesh_eq_ok hw
      exact .of_append rfl
  | holdPeer place target =>
    simp only [apply, bind_eq_ok, require_eq_ok] at h
    obtain ⟨m, hm, h⟩ := h
    split at h <;>
      · rw [pure_eq_ok] at h
        cases h
        exact .of_eq rfl
  | broadcast place payload =>
    simp only [apply, bind_eq_ok, require_eq_ok] at h
    obtain ⟨m, hm, h⟩ := h
    split at h
    · rw [pure_eq_ok] at h
      cases h
      exact .of_eq rfl
    · rename_i row hrow
      simp only [bind_eq_ok, attempt_eq_ok, pure_eq_ok] at h
      obtain ⟨s₁, hsend, heq⟩ := h
      cases heq
      simp only [touched, sends, hm, Option.map_some, hrow]
      exact altersOnly_sendAll hsend
  | attach engine handles =>
    simp only [apply, bind_eq_ok, require_eq_ok, pure_eq_ok] at h
    obtain ⟨peers, hpeers, s₁, hattach, heq⟩ := h
    cases heq
    exact .of_eq (peers_attachTo hattach)
  | reject engine error =>
    simp only [apply, bind_eq_ok, require_eq_ok, pure_eq_ok] at h
    obtain ⟨x, hx, y, hy, heq⟩ := h
    cases heq
    exact .of_eq rfl
  | wireMesh =>
    simp only [apply, bind_eq_ok, require_eq_ok, pure_eq_ok] at h
    obtain ⟨m, hm, heq⟩ := h
    cases heq
    exact .of_eq (peers_wire s 0 m.rows)
  | startMesh =>
    simp only [apply, bind_eq_ok, require_eq_ok, pure_eq_ok] at h
    obtain ⟨m, hm, heq⟩ := h
    cases heq
    exact .of_eq (peers_updateAll s m.peers)
  | closeMesh =>
    simp only [apply, bind_eq_ok, require_eq_ok, pure_eq_ok] at h
    obtain ⟨m, hm, heq⟩ := h
    cases heq
    rw [touched, hm]
    exact World.altersOnly_closeAll s.world m.peers
  | newSource seed =>
    cases h
    exact .of_eq rfl
  | clonePeer | dropPeer | receiveAt | updateAt | unlink | dropMesh =>
    simp only [apply, bind_eq_ok, require_eq_ok, pure_eq_ok] at h
    obtain ⟨x, hx, heq⟩ := h
    cases heq
    exact .of_eq rfl

theorem altersOnly_run {cs : List Command} {answers : List Answer} (h : s.run cs = .ok (answers, s')) :
    AltersOnly (s.collect touched cs) s.world s'.world := by
  induction cs generalizing s answers with
  | nil => cases h; exact .of_eq rfl
  | cons c cs ih =>
    obtain ⟨answer, s₁, rest, happly, hrest⟩ := run_cons_eq_ok h
    simp only [collect, happly]
    exact (altersOnly_apply happly).trans (ih hrest)

end Simulation

end VirtualMesh

import VirtualMesh.Proofs.Simulation.Run

/-!
# Peers that are held

A peer is alive while a handle, a link or the mesh holds it, or a message is on its way to it. Only a
peer that is held can be sent through, linked or handed out, so a peer that is gone stays gone.
-/

namespace VirtualMesh

variable {ε ρ : Type}

namespace World

variable {w w' w₁ w₂ w₃ : World ε ρ} {p : Nat}

theorem isHeld_iff : w.isHeld p = true ↔
    some p ∈ w.handles ∨ (∃ l ∈ w.links, l.peer = p) ∨ ∃ m, w.mesh = some m ∧ p ∈ m.peers := by
  unfold isHeld
  cases w.mesh <;> simp [Mesh.contains_iff, or_assoc]

theorem isAlive_iff :
    w.isAlive p = true ↔ w.isHeld p = true ∨ ∃ peer, w.peers[p]? = some peer ∧ 0 < peer.inFlight := by
  rw [isAlive, Bool.or_eq_true]
  cases w.peers[p]? <;> simp

theorem isHeld_of_handle {handle : Nat} (h : w.peerOfHandle handle = some p) : w.isHeld p = true :=
  isHeld_iff.2 (.inl (List.mem_of_getElem? (Option.join_eq_some_iff.1 h)))

theorem isHeld_of_link {number : Nat} (h : w.peerOfLink number = some p) : w.isHeld p = true := by
  obtain ⟨l, hl, rfl⟩ := Option.map_eq_some_iff.1 h
  exact isHeld_iff.2 (.inr (.inl ⟨l, List.mem_of_find?_eq_some hl, rfl⟩))

theorem isHeld_of_mesh {m : Mesh} (hm : w.mesh = some m) (hp : p ∈ m.peers) : w.isHeld p = true :=
  isHeld_iff.2 (.inr (.inr ⟨m, hm, hp⟩))

/-- No peer of `w` that was gone is back in `w'`. -/
structure Fades (w w' : World ε ρ) : Prop where
  length_le : w.peers.length ≤ w'.peers.length
  isAlive : ∀ p, p < w.peers.length → w'.isAlive p = true → w.isAlive p = true

namespace Fades

theorem refl (w : World ε ρ) : w.Fades w := ⟨Nat.le_refl _, fun _ _ h => h⟩

theorem trans (h₁₂ : w₁.Fades w₂) (h₂₃ : w₂.Fades w₃) : w₁.Fades w₃ where
  length_le := Nat.le_trans h₁₂.length_le h₂₃.length_le
  isAlive p hp h := h₁₂.isAlive p hp (h₂₃.isAlive p (Nat.lt_of_lt_of_le hp h₁₂.length_le) h)

theorem of_held {new : List Peer} (hpeers : w'.peers = w.peers ++ new)
    (hheld : ∀ p, p < w.peers.length → w'.isHeld p = true → w.isHeld p = true) : w.Fades w' where
  length_le := by rw [hpeers, List.length_append]; omega
  isAlive p hp h := by
    rcases isAlive_iff.1 h with h | ⟨peer, hpeer, hflight⟩
    · exact isAlive_iff.2 (.inl (hheld p hp h))
    · rw [hpeers, List.getElem?_append_left hp] at hpeer
      exact isAlive_iff.2 (.inr ⟨peer, hpeer, hflight⟩)

theorem setPeer {old new : Peer} (hp : w.peers[p]? = some old)
    (h : 0 < new.inFlight → w.isAlive p = true) : w.Fades (w.setPeer p new) where
  length_le := by rw [World.setPeer, List.length_set]
  isAlive q hq hlive := by
    rcases isAlive_iff.1 hlive with hheld | ⟨peer, hpeer, hflight⟩
    · exact isAlive_iff.2 (.inl hheld)
    · by_cases hqp : p = q
      · subst hqp
        rw [World.setPeer, List.getElem?_set_self (List.getElem?_eq_some_iff.1 hp).1] at hpeer
        cases hpeer
        exact h hflight
      · rw [World.setPeer, List.getElem?_set_ne hqp] at hpeer
        exact isAlive_iff.2 (.inr ⟨peer, hpeer, hflight⟩)

theorem setEngine (h : w.Fades w') (i : Nat) (x : ε) : w.Fades (w'.setEngine i x) :=
  ⟨h.length_le, h.isAlive⟩

theorem setSource (n : Nat) (r : ρ) : w.Fades (w.setSource n r) := ⟨Nat.le_refl _, fun _ _ h => h⟩

theorem handOut (h : w.isHeld p = true) : w.Fades { w with handles := w.handles ++ [some p] } := by
  refine of_held (List.append_nil _).symm fun q hq hheld => ?_
  rcases isHeld_iff.1 hheld with hmem | hother
  · rcases List.mem_append.1 hmem with hmem | hmem
    · exact isHeld_iff.2 (.inl hmem)
    · obtain rfl : q = p := by simpa using hmem
      exact h
  · exact isHeld_iff.2 (.inr hother)

end Fades

theorem fades_link {owner : Nat} {peers : List Nat} (h : ∀ p ∈ peers, w.isHeld p = true) :
    w.Fades (w.link owner peers).2 := by
  refine .of_held (List.append_nil _).symm fun q _ hheld => ?_
  rcases isHeld_iff.1 hheld with hmem | ⟨l, hl, rfl⟩ | hmesh
  · exact isHeld_iff.2 (.inl hmem)
  · rcases List.mem_append.1 hl with hl | hl
    · exact isHeld_iff.2 (.inr (.inl ⟨l, hl, rfl⟩))
    · obtain ⟨x, hx, rfl⟩ := List.mem_map.1 hl
      exact h x.1 (List.fst_mem_of_mem_zipIdx hx)
  · exact isHeld_iff.2 (.inr (.inr hmesh))

theorem isHeld_link {owner : Nat} {peers : List Nat} (h : w.isHeld p = true) :
    (w.link owner peers).2.isHeld p = true := by
  rcases isHeld_iff.1 h with hmem | ⟨l, hl, rfl⟩ | hmesh
  · exact isHeld_iff.2 (.inl hmem)
  · exact isHeld_iff.2 (.inr (.inl ⟨l, List.mem_append_left _ hl, rfl⟩))
  · exact isHeld_iff.2 (.inr (.inr hmesh))

theorem fades_buildMesh [NormalSource ρ] {engines : List Nat} {config : Config}
    (h : w.buildMesh engines config = .ok w') : w.Fades w' := by
  obtain ⟨-, rfl⟩ := Simulation.buildMesh_eq_ok h
  refine .of_held rfl fun p hp hheld => ?_
  rcases isHeld_iff.1 hheld with hmem | hlink | ⟨m, hm, hmem⟩
  · exact isHeld_iff.2 (.inl hmem)
  · exact isHeld_iff.2 (.inr (.inl hlink))
  · cases hm
    have hle := Mesh.le_of_mem_number hmem
    omega

end World

/-- Actions that neither let time pass nor update an engine. -/
def Action.isCalm : Action → Bool
  | .wait _ | .fire _ | .update _ | .updateEngine _ => false
  | _ => true

/-- Actions that hand on only what is held. -/
def Action.Tame (w : World ε ρ) : Action → Prop
  | .send p _ => w.isHeld p = true
  | .attach _ peers => ∀ p ∈ peers, w.isHeld p = true
  | .unlink _ | .hold | .setMesh _ => False
  | _ => True

theorem Action.Tame.mono {w w' : World ε ρ} {a : Action} (h : ∀ p, w.isHeld p = true → w'.isHeld p = true)
    (ha : a.Tame w) : a.Tame w' := by
  cases a with
  | send p payload => exact h p ha
  | attach i peers => exact fun p hp => h p (ha p hp)
  | unlink | hold | setMesh => cases ha
  | _ => trivial

def Command.isCalm : Command → Bool
  | .time _ | .update _ | .updateAt _ | .startMesh => false
  | _ => true

namespace Simulation

variable [NormalSource ρ] [Consensus ε] {s s' s₁ : Simulation ε ρ} {a : Action} {as : List Action}

theorem Step.isHeld (hstep : Step s a s') (ha : a.Tame s.world) {p : Nat} (hp : s.world.isHeld p = true) :
    s'.world.isHeld p = true := by
  cases hstep with
  | attach => exact World.isHeld_link hp
  | unlink | hold | setMesh => cases ha
  | tick | update =>
    rw [Machine.world_putAll]
    exact hp
  | _ => exact hp

theorem Step.fades (hstep : Step s a s') (ha : a.Tame s.world) : s.world.Fades s'.world := by
  cases hstep with
  | deliver _ _ hp =>
    refine .setEngine (.setPeer hp fun hflight => World.isAlive_iff.2 (.inr ⟨_, hp, ?_⟩)) _ _
    exact Nat.lt_of_lt_of_le hflight (Nat.sub_le _ _)
  | drop _ _ hp =>
    refine .setPeer hp fun hflight => World.isAlive_iff.2 (.inr ⟨_, hp, ?_⟩)
    exact Nat.lt_of_lt_of_le hflight (Nat.sub_le _ _)
  | send hp => exact .trans (.setSource _ _) (.setPeer hp fun _ => World.isAlive_iff.2 (.inl ha))
  | close hp => exact .setPeer hp fun hflight => World.isAlive_iff.2 (.inr ⟨_, hp, hflight⟩)
  | attach => exact .setEngine (World.fades_link ha) _ _
  | unlink | hold | setMesh => cases ha
  | addPeers => exact .of_held rfl fun _ _ h => h
  | tick | update =>
    rw [Machine.world_putAll]
    exact .setEngine (.refl _) _ _
  | receive | updateEngine | propose | reject => exact .setEngine (.refl _) _ _
  | addSource => exact .of_held (List.append_nil _).symm fun _ _ h => h
  | wait | idle => exact .refl _

theorem Trace.fades (htrace : Trace s as s') (has : ∀ a ∈ as, a.Tame s.world) : s.world.Fades s'.world := by
  induction htrace with
  | nil => exact .refl _
  | cons hstep _ ih =>
    obtain ⟨ha, has⟩ := List.forall_mem_cons.1 has
    exact (hstep.fades ha).trans (ih fun b hb => (has b hb).mono fun p hp => hstep.isHeld ha hp)

/-- What a command amounts to that neither lets time pass nor updates an engine. -/
def Calms (s s' : Simulation ε ρ) : Prop :=
  ∃ as, Trace s as s' ∧ (∀ a ∈ as, a.isCalm = true) ∧ s.world.Fades s'.world

namespace Calms

theorem refl (s : Simulation ε ρ) : s.Calms s := ⟨[], .nil, by simp, .refl _⟩

theorem trans (h₁ : s.Calms s₁) (h₂ : s₁.Calms s') : s.Calms s' := by
  obtain ⟨as, htrace, has, hfades⟩ := h₁
  obtain ⟨bs, htrace', hbs, hfades'⟩ := h₂
  refine ⟨as ++ bs, htrace.append htrace', ?_, hfades.trans hfades'⟩
  exact fun a ha => (List.mem_append.1 ha).elim (has a) (hbs a)

theorem of_trace (htrace : Trace s as s') (has : ∀ a ∈ as, a.isCalm = true ∧ a.Tame s.world) : s.Calms s' :=
  ⟨as, htrace, fun a ha => (has a ha).1, htrace.fades fun a ha => (has a ha).2⟩

theorem step (hstep : Step s a s') (hcalm : a.isCalm = true) (hfades : s.world.Fades s'.world) : s.Calms s' :=
  ⟨[a], .single hstep, by simpa using hcalm, hfades⟩

end Calms

theorem calms_sendAll (hs : s.Sound) {messages : List (Nat × Bytes)}
    (hm : ∀ m ∈ messages, m.1 < s.world.peers.length ∧ s.world.isHeld m.1 = true)
    (h : s.sendAll messages = .ok s') : s.Calms s' := by
  refine .of_trace (sendAll_trace hs (fun m hm' => (hm m hm').1) h) fun a ha => ?_
  obtain ⟨m, hmem, rfl⟩ := List.mem_map.1 ha
  exact ⟨rfl, (hm m hmem).2⟩

theorem calms_propose (hs : s.Sound) {engine : Nat} {state : State} (hi : engine < s.world.engines.length)
    (h : s.propose engine state = .ok s') : s.Calms s' := by
  refine .of_trace (propose_trace hs hi h) (List.forall_mem_cons.2 ⟨⟨rfl, trivial⟩, fun a ha => ?_⟩)
  obtain ⟨m, hmem, rfl⟩ := List.mem_map.1 ha
  refine ⟨rfl, ?_⟩
  unfold flood at hmem
  split at hmem
  · cases hmem
  · split at hmem
    · cases hmem
    · obtain ⟨o, -, ho⟩ := List.mem_filterMap.1 hmem
      obtain ⟨p, hp, rfl⟩ := Option.map_eq_some_iff.1 ho
      exact World.isHeld_of_link hp

theorem calms_wire {rows : List (List (Nat × Nat))} {engine : Nat} (hs : s.Sound)
    (hp : ∀ row ∈ rows, ∀ x ∈ row, x.2 < s.world.peers.length ∧ s.world.isHeld x.2 = true) :
    s.Calms (s.wire engine rows) := by
  induction rows generalizing s engine with
  | nil => exact .refl s
  | cons row rows ih =>
    obtain ⟨hrow, hrows⟩ := List.forall_mem_cons.1 hp
    cases hattach : s.attachTo engine (row.map Prod.snd) with
    | none =>
      simp only [wire, hattach, Option.getD_none]
      exact ih hs hrows
    | some s₁ =>
      have hpeers : ∀ p ∈ row.map Prod.snd, p < s.world.peers.length ∧ s.world.isHeld p = true := by
        intro p hp
        obtain ⟨x, hx, rfl⟩ := List.mem_map.1 hp
        exact hrow x hx
      have hstep := attachTo_step (fun p hp => (hpeers p hp).1) hattach
      have htame : Action.Tame s.world (.attach engine (row.map Prod.snd)) := fun p hp => (hpeers p hp).2
      simp only [wire, hattach, Option.getD_some]
      refine (Calms.step hstep rfl (hstep.fades htame)).trans (ih (hstep.sound hs) fun r hr x hx => ?_)
      obtain ⟨hlt, hheld⟩ := hrows r hr x hx
      exact ⟨Nat.lt_of_lt_of_le hlt hstep.length_le, hstep.isHeld htame hheld⟩

theorem calms_addPeer (hs : s.Sound) {engine source : Nat} {config : Config}
    (he : engine < s.world.engines.length) (hr : source < s.world.sources.length)
    (hc : config.validate = .ok ()) : s.Calms (s.addPeer engine source config).2 := by
  refine ⟨_, addPeer_trace hs he hr hc, by simp [Action.isCalm], ?_⟩
  have hpeers : (s.addPeer engine source config).2.world.peers = s.world.peers ++ [.fresh engine source config] := rfl
  refine .of_held hpeers fun p hp hheld => ?_
  rcases World.isHeld_iff.1 hheld with hmem | hother
  · rcases List.mem_append.1 hmem with hmem | hmem
    · exact World.isHeld_iff.2 (.inl hmem)
    · obtain rfl : p = s.world.peers.length := by simpa using hmem
      omega
  · exact World.isHeld_iff.2 (.inr hother)

theorem calms_of_apply (hs : s.Sound) {c : Command} (hc : c.isCalm = true) {answer : Answer}
    (h : s.apply c = .ok (answer, s')) : s.Calms s' := by
  cases c with
  | time | update | updateAt | startMesh => cases hc
  | newSource seed =>
    simp only [apply, pure_eq_ok] at h
    cases h
    have hstep := addSource_step s (some seed)
    have hsound := hstep.sound hs
    refine (Calms.step hstep rfl (hstep.fades trivial)).trans ?_
    refine .step (.hold hsound.world.handles fun n hn => ?_) rfl (.of_held (List.append_nil _).symm fun _ _ h => h)
    rcases List.mem_append.1 hn with hn | hn
    · exact hsound.world.shared n hn
    · simp [addSource, List.mem_singleton.1 hn]
  | newPeer engine config shared =>
    obtain rfl | ⟨he, hc, ⟨source, hr, rfl⟩ | rfl⟩ := newPeer_cases h
    · exact .refl s'
    · exact calms_addPeer hs he (hs.world.shared source hr) hc
    · have hstep := addSource_step s config.seed
      refine (Calms.step hstep rfl (hstep.fades trivial)).trans ?_
      exact calms_addPeer (hstep.sound hs) he (by simp [addSource]) hc
  | clonePeer handle =>
    simp only [apply, bind_eq_ok, require_eq_ok, pure_eq_ok] at h
    obtain ⟨p, hp, heq⟩ := h
    cases heq
    exact .step (handOut_step hs (hs.world.peerOfHandle_lt hp)) rfl (.handOut (World.isHeld_of_handle hp))
  | dropPeer handle =>
    simp only [apply, bind_eq_ok, require_eq_ok, pure_eq_ok] at h
    obtain ⟨p, hp, heq⟩ := h
    cases heq
    have hhandles : ∀ q, some q ∈ s.world.handles.set handle none → some q ∈ s.world.handles := by
      intro q hq
      exact (List.mem_or_eq_of_mem_set hq).resolve_right (Option.some_ne_none q)
    refine .step (.hold (fun q hq => hs.world.handles q (hhandles q hq)) hs.world.shared) rfl ?_
    exact .of_held (List.append_nil _).symm fun q _ hq =>
      World.isHeld_iff.2 ((World.isHeld_iff.1 hq).imp_left (hhandles q))
  | send handle payload =>
    simp only [apply, bind_eq_ok, require_eq_ok, attempt_eq_ok, pure_eq_ok] at h
    obtain ⟨p, hp, s₁, hsend, heq⟩ := h
    cases heq
    have hstep := send_step hs (hs.world.peerOfHandle_lt hp) hsend
    exact .step hstep rfl (hstep.fades (World.isHeld_of_handle hp))
  | close handle =>
    simp only [apply, bind_eq_ok, require_eq_ok, pure_eq_ok] at h
    obtain ⟨p, hp, heq⟩ := h
    cases heq
    have hstep := close_step hs (hs.world.peerOfHandle_lt hp)
    exact .step hstep rfl (hstep.fades trivial)
  | propose handle state =>
    simp only [apply, bind_eq_ok, require_eq_ok, attempt_eq_ok, pure_eq_ok] at h
    obtain ⟨p, hp, peer, hpeer, s₁, hpropose, heq⟩ := h
    cases heq
    exact calms_propose hs (hs.world.engines peer (List.mem_of_getElem? hpeer)) hpropose
  | receiveAt engine message =>
    simp only [apply, bind_eq_ok, require_eq_ok, pure_eq_ok] at h
    obtain ⟨x, hx, heq⟩ := h
    cases heq
    have hstep : Step s (.receive engine message) _ := .receive hx
    exact .step hstep rfl (hstep.fades trivial)
  | proposeAt engine state =>
    simp only [apply, bind_eq_ok, require_eq_ok, attempt_eq_ok, pure_eq_ok] at h
    obtain ⟨x, hx, s₁, hpropose, heq⟩ := h
    cases heq
    exact calms_propose hs (List.getElem?_eq_some_iff.1 hx).1 hpropose
  | reject engine error =>
    simp only [apply, bind_eq_ok, require_eq_ok, pure_eq_ok] at h
    obtain ⟨x, hx, y, hy, heq⟩ := h
    cases heq
    have hstep : Step s (.reject engine error) _ := .reject hx hy
    exact .step hstep rfl (hstep.fades trivial)
  | attach engine handles =>
    simp only [apply, bind_eq_ok, require_eq_ok, pure_eq_ok] at h
    obtain ⟨peers, hpeers, s₁, hattach, heq⟩ := h
    cases heq
    have hhandle : ∀ p ∈ peers, ∃ handle, s.world.peerOfHandle handle = some p := by
      intro p hp
      obtain ⟨handle, -, hh⟩ := mem_of_mapM_eq_ok hpeers p hp
      exact ⟨handle, require_eq_ok.1 hh⟩
    have hstep := attachTo_step (fun p hp => (hhandle p hp).elim fun _ h => hs.world.peerOfHandle_lt h) hattach
    exact .step hstep rfl (hstep.fades fun p hp => (hhandle p hp).elim fun _ h => World.isHeld_of_handle h)
  | unlink engine count =>
    simp only [apply, bind_eq_ok, require_eq_ok, pure_eq_ok] at h
    obtain ⟨x, hx, heq⟩ := h
    cases heq
    have hlinks := World.unlinkFirst_sublist engine (count.getD s.world.links.length) s.world.links
    refine .step (.unlink (i := engine) hlinks) rfl (.of_held (List.append_nil _).symm fun q _ hq => ?_)
    refine World.isHeld_iff.2 ((World.isHeld_iff.1 hq).imp_right (Or.imp_left ?_))
    rintro ⟨l, hl, hlq⟩
    exact ⟨l, hlinks.subset hl, hlq⟩
  | buildMesh config engines =>
    simp only [apply, bind_eq_ok] at h
    obtain ⟨es, hes, h⟩ := h
    split at h
    · rw [pure_eq_ok] at h
      cases h
      exact .refl s
    · rename_i w hw
      rw [pure_eq_ok] at h
      cases h
      refine ⟨_, buildMesh_trace hs ?_ hw, by simp [Action.isCalm], World.fades_buildMesh hw⟩
      intro e he
      obtain ⟨x, hx⟩ := ok_of_mapM_eq_ok hes e he
      exact (List.getElem?_eq_some_iff.1 (require_eq_ok.1 hx)).1
  | holdPeer place target =>
    simp only [apply, bind_eq_ok, require_eq_ok] at h
    obtain ⟨m, hm, h⟩ := h
    split at h
    · rw [pure_eq_ok] at h
      cases h
      exact .refl s
    · rename_i p hp
      rw [pure_eq_ok] at h
      cases h
      have hmem := Mesh.mem_peers_of_peer hp
      exact .step (handOut_step hs (hs.world.mesh m hm p hmem)) rfl (.handOut (World.isHeld_of_mesh hm hmem))
  | broadcast place payload =>
    simp only [apply, bind_eq_ok, require_eq_ok] at h
    obtain ⟨m, hm, h⟩ := h
    split at h
    · rw [pure_eq_ok] at h
      cases h
      exact .refl s
    · rename_i row hrow
      simp only [bind_eq_ok, attempt_eq_ok, pure_eq_ok] at h
      obtain ⟨s₁, hsend, heq⟩ := h
      cases heq
      refine calms_sendAll hs (fun x hx => ?_) hsend
      obtain ⟨y, hy, rfl⟩ := List.mem_map.1 hx
      have hmem := Mesh.mem_peers_of_peersOf hrow hy
      exact ⟨hs.world.mesh m hm _ hmem, World.isHeld_of_mesh hm hmem⟩
  | wireMesh =>
    simp only [apply, bind_eq_ok, require_eq_ok, pure_eq_ok] at h
    obtain ⟨m, hm, heq⟩ := h
    cases heq
    refine calms_wire hs fun row hrow x hx => ?_
    have hmem : x.2 ∈ m.peers := List.mem_map_of_mem (List.mem_flatten_of_mem hrow hx)
    exact ⟨hs.world.mesh m hm _ hmem, World.isHeld_of_mesh hm hmem⟩
  | closeMesh =>
    simp only [apply, bind_eq_ok, require_eq_ok, pure_eq_ok] at h
    obtain ⟨m, hm, heq⟩ := h
    cases heq
    refine .of_trace (closeAll_trace hs (hs.world.mesh m hm)) fun a ha => ?_
    obtain ⟨p, -, rfl⟩ := List.mem_map.1 ha
    exact ⟨rfl, trivial⟩
  | dropMesh =>
    simp only [apply, bind_eq_ok, require_eq_ok, pure_eq_ok] at h
    obtain ⟨m, hm, heq⟩ := h
    cases heq
    have hnone : ∀ m : Mesh, none ≠ some m := fun m h => Option.some_ne_none m h.symm
    refine .step (.setMesh fun m hm => (hnone m hm).elim) rfl (.of_held (List.append_nil _).symm fun q _ hq => ?_)
    refine World.isHeld_iff.2 ((World.isHeld_iff.1 hq).imp_right (Or.imp_right ?_))
    rintro ⟨m, hm, -⟩
    exact (hnone m hm).elim

/-- What a command amounts to. -/
inductive Course (s : Simulation ε ρ) : Command → Simulation ε ρ → Prop
  | calm {c : Command} {s' : Simulation ε ρ} (hc : c.isCalm = true) (h : s.Calms s') : Course s c s'
  | time {step : ClockStep} {as : List Action} {s' : Simulation ε ρ} (htrace : Trace s as s')
      (has : ∀ a ∈ as, (∃ t, a = .wait t) ∨ ∃ e, a = .fire e) : Course s (.time step) s'
  | update {handle p : Nat} (hp : s.world.peerOfHandle handle = some p) : Course s (.update handle) (s.updateAll [p])
  | updateAt {i : Nat} {s' : Simulation ε ρ} (hstep : Step s (.updateEngine i) s') : Course s (.updateAt i) s'
  | startMesh {m : Mesh} (hm : s.world.mesh = some m) : Course s .startMesh (s.updateAll m.peers)

theorem course_of_apply (hs : s.Sound) {c : Command} {answer : Answer} (h : s.apply c = .ok (answer, s')) :
    s.Course c s' := by
  by_cases hc : c.isCalm = true
  · exact .calm hc (calms_of_apply hs hc h)
  · cases c with
    | time step =>
      obtain ⟨as, htrace, has⟩ := apply_time_trace hs h
      exact .time htrace has
    | update handle =>
      simp only [apply, bind_eq_ok, require_eq_ok, pure_eq_ok] at h
      obtain ⟨p, hp, heq⟩ := h
      cases heq
      exact .update hp
    | updateAt engine =>
      simp only [apply, bind_eq_ok, require_eq_ok, pure_eq_ok] at h
      obtain ⟨x, hx, heq⟩ := h
      cases heq
      exact .updateAt (.updateEngine hx)
    | startMesh =>
      simp only [apply, bind_eq_ok, require_eq_ok, pure_eq_ok] at h
      obtain ⟨m, hm, heq⟩ := h
      cases heq
      exact .startMesh hm
    | _ => exact absurd rfl hc

theorem fades_updateAll (hs : s.Sound) {peers : List Nat} (hlt : ∀ p ∈ peers, p < s.world.peers.length) :
    s.world.Fades (s.updateAll peers).world := by
  obtain ⟨as, htrace, has⟩ := updateAll_trace hs hlt
  refine htrace.fades fun a ha => ?_
  obtain ⟨p, rfl⟩ := has a ha
  trivial

theorem fades_of_apply (hs : s.Sound) {c : Command} {answer : Answer} (h : s.apply c = .ok (answer, s')) :
    s.world.Fades s'.world := by
  cases course_of_apply hs h with
  | calm _ h =>
    obtain ⟨as, -, -, hfades⟩ := h
    exact hfades
  | time htrace has =>
    refine htrace.fades fun a ha => ?_
    obtain ⟨t, rfl⟩ | ⟨e, rfl⟩ := has a ha <;> trivial
  | update hp => exact fades_updateAll hs (List.forall_mem_singleton.2 (hs.world.peerOfHandle_lt hp))
  | updateAt hstep => exact hstep.fades trivial
  | startMesh hm => exact fades_updateAll hs (hs.world.mesh _ hm)

theorem fades_of_run (hs : s.Sound) {cs : List Command} {answers : List Answer}
    (hrun : s.run cs = .ok (answers, s')) : s.world.Fades s'.world :=
  sound_induct (P := fun s' => s.world.Fades s'.world) (fun hs h happly => h.trans (fades_of_apply hs happly)) hs hrun
    (.refl _)

end Simulation

end VirtualMesh

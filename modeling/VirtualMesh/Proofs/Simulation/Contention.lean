import VirtualMesh.Proofs.Scheduler.Picking
import VirtualMesh.Proofs.Simulation.Updates

/-!
# Calls that race to close

Calls that close peers may come from several places at once. One that closes a whole mesh closes its peers one after
another, and anything may happen in between. However the calls interleave, a peer that is asked to close is closed by
exactly one of them, and every call counts the peers that it closed itself.
-/

namespace VirtualMesh

namespace World

variable {ε ρ : Type}

/-- Peers that are closed one after another, each with whether it was open until then. -/
def closings (w : World ε ρ) : List Nat → List (Nat × Bool)
  | [] => []
  | p :: ps => (p, (w.close p).1) :: (w.close p).2.closings ps

def closedCount (w : World ε ρ) : Nat := w.peers.countP Peer.isClosed

def openAmong (w : World ε ρ) (ps : List Nat) : Nat := ps.countP fun p => !w.isClosed p

variable {w w' w'' : World ε ρ} {l l' : List (Nat × Bool)}

theorem map_fst_closings (w : World ε ρ) (ps : List Nat) : (w.closings ps).map Prod.fst = ps := by
  induction ps generalizing w with
  | nil => rfl
  | cons p ps ih => rw [closings, List.map_cons, ih]

theorem closeAll_eq_countP (w : World ε ρ) (ps : List Nat) : (w.closeAll ps).1 = (w.closings ps).countP Prod.snd := by
  induction ps generalizing w with
  | nil => rfl
  | cons p ps ih =>
    rw [closings, List.countP_cons, ← ih, Nat.add_comm]
    rfl

theorem close_fst {p : Nat} (hp : p < w.peers.length) : (w.close p).1 = !w.isClosed p := by
  have hpeer := List.getElem?_eq_getElem hp
  rw [isClosed_eq hpeer, close, hpeer]
  rfl

/-- The closings `l` are what became of the peers that were closed on the way from `w` to `w'`: whoever was asked to
close is closed, and was closed exactly once if it was open. -/
structure ClosedBy (w : World ε ρ) (l : List (Nat × Bool)) (w' : World ε ρ) : Prop where
  length_le : w.peers.length ≤ w'.peers.length
  isClosed : ∀ p, w'.isClosed p = true ↔ w.isClosed p = true ∨ p ∈ l.map Prod.fst
  wins : ∀ p, l.count (p, true) = if w.isClosed p = false ∧ p ∈ l.map Prod.fst then 1 else 0
  total : w'.closedCount = w.closedCount + l.countP Prod.snd

namespace ClosedBy

/-- Peers may come in that are open. -/
theorem of_flags {k : Nat} (h : w'.peers.map Peer.isClosed = w.peers.map Peer.isClosed ++ List.replicate k false) :
    w.ClosedBy [] w' where
  length_le := by
    have hlength := congrArg List.length h
    rw [List.length_append, List.length_map, List.length_map] at hlength
    omega
  isClosed p := by
    have hflag : ∀ w : World ε ρ, w.isClosed p = true ↔ (w.peers.map Peer.isClosed)[p]? = some true := by
      intro w
      rw [World.isClosed, List.getElem?_map, Option.any_eq_true, Option.map_eq_some_iff]
    rw [hflag, hflag, h, List.getElem?_append]
    split
    · simp
    · rename_i hle
      have hnone := List.getElem?_eq_none (Nat.not_lt.1 hle)
      simp [hnone, List.getElem?_replicate]
  wins p := by simp
  total := by
    have hcount : ∀ w : World ε ρ, w.closedCount = (w.peers.map Peer.isClosed).count true := by
      intro w
      rw [closedCount, List.count, List.countP_map]
      exact List.countP_congr fun peer _ => by simp
    rw [hcount, hcount, h, List.count_append, List.count_replicate]
    rfl

theorem of_peers (h : w'.peers = w.peers) : w.ClosedBy [] w' :=
  of_flags (k := 0) (by rw [h, List.replicate_zero, List.append_nil])

theorem refl (w : World ε ρ) : w.ClosedBy [] w := of_peers rfl

theorem trans (h : w.ClosedBy l w') (h' : w'.ClosedBy l' w'') : w.ClosedBy (l ++ l') w'' where
  length_le := Nat.le_trans h.length_le h'.length_le
  isClosed p := by rw [h'.isClosed, h.isClosed, List.map_append, List.mem_append, or_assoc]
  wins p := by
    have hopen : w'.isClosed p = false ↔ w.isClosed p = false ∧ p ∉ l.map Prod.fst := by
      rw [← Bool.not_eq_true, h.isClosed, not_or, Bool.not_eq_true]
    rw [List.count_append, h.wins, h'.wins, List.map_append]
    simp only [hopen, List.mem_append]
    -- a peer that `l` closes is not open any more when `l'` comes to it
    by_cases hp : w.isClosed p = false
    · by_cases hl : p ∈ l.map Prod.fst
      · simp [hp, hl]
      · simp [hp, hl]
    · simp [hp]
  total := by rw [h'.total, h.total, List.countP_append, Nat.add_assoc]

theorem close {p : Nat} (hp : p < w.peers.length) : w.ClosedBy [(p, (w.close p).1)] (w.close p).2 := by
  have hpeer := List.getElem?_eq_getElem hp
  rw [close_fst hp, close_eq hpeer]
  constructor
  case length_le => exact Nat.le_of_eq (List.length_set ..).symm
  case isClosed =>
    intro q
    by_cases hqp : p = q
    · subst hqp
      simp [isClosed_setPeer_self hpeer, Peer.isClosed]
    · simp [World.isClosed, setPeer, List.getElem?_set_ne hqp, Ne.symm hqp]
  case wins =>
    intro q
    by_cases hqp : p = q
    · subst hqp
      cases w.isClosed p <;> simp
    · simp [hqp, Ne.symm hqp]
  case total =>
    rw [closedCount, closedCount, setPeer, List.countP_set hp, isClosed_eq hpeer]
    cases hclosed : w.peers[p].isClosed with
    | false => simp [Peer.isClosed]
    | true =>
      have hpos : 0 < w.peers.countP Peer.isClosed := List.countP_pos_iff.2 ⟨_, List.getElem_mem hp, hclosed⟩
      simp [Peer.isClosed]
      omega

theorem closeAll {ps : List Nat} (hps : ∀ p ∈ ps, p < w.peers.length) :
    w.ClosedBy (w.closings ps) (w.closeAll ps).2 := by
  induction ps generalizing w with
  | nil => exact refl w
  | cons p ps ih =>
    obtain ⟨hp, hps⟩ := List.forall_mem_cons.1 hps
    have hclose := close hp
    exact hclose.trans (ih fun q hq => Nat.lt_of_lt_of_le (hps q hq) hclose.length_le)

/-- From a world with all peers open, the closings that won name each peer once that was asked to close. -/
theorem count_wins (h : w.ClosedBy l w') (hopen : ∀ p, w.isClosed p = false) :
    l.countP Prod.snd = (l.map Prod.fst).dedup.length := by
  have hcount : ∀ p, ((l.filter Prod.snd).map Prod.fst).count p = if p ∈ l.map Prod.fst then 1 else 0 := by
    intro p
    have hwins := h.wins p
    simp only [hopen p, true_and] at hwins
    rw [← hwins, List.count, List.count, List.countP_map, List.countP_filter]
    exact List.countP_congr fun x _ => by obtain ⟨q, b⟩ := x; cases b <;> simp
  have hnodup : ((l.filter Prod.snd).map Prod.fst).Nodup :=
    List.nodup_iff_count_le_one.2 fun p => by rw [hcount]; split <;> omega
  have hmem : ∀ p, p ∈ (l.filter Prod.snd).map Prod.fst ↔ p ∈ (l.map Prod.fst).dedup := by
    intro p
    rw [List.mem_dedup, ← List.count_pos_iff, hcount]
    split <;> simp [*]
  have hperm := (List.perm_ext_iff_of_nodup hnodup (List.nodup_dedup _)).2 hmem
  rw [List.countP_eq_length_filter, ← hperm.length_eq, List.length_map]

theorem openAmong_eq (h : w.ClosedBy l w') {ps : List Nat} (hps : ∀ p ∈ ps, p ∉ l.map Prod.fst) :
    w'.openAmong ps = w.openAmong ps := by
  refine List.countP_congr fun p hp => ?_
  have hsame := h.isClosed p
  simp only [hps p hp, or_false] at hsame
  rw [Bool.eq_iff_iff.2 hsame]

end ClosedBy

/-- Closing different peers one after another wins those that were open before the first of them. -/
theorem countP_closings {ps : List Nat} (hnodup : ps.Nodup) (hps : ∀ p ∈ ps, p < w.peers.length) :
    (w.closings ps).countP Prod.snd = w.openAmong ps := by
  induction ps generalizing w with
  | nil => rfl
  | cons p ps ih =>
    obtain ⟨hp, hps⟩ := List.forall_mem_cons.1 hps
    obtain ⟨hmem, hnodup⟩ := List.nodup_cons.1 hnodup
    have hclose := ClosedBy.close hp
    have hstays : World.openAmong (w.close p).2 ps = w.openAmong ps := by
      refine hclose.openAmong_eq fun q hq => ?_
      rw [List.map_cons, List.map_nil, List.mem_singleton]
      rintro rfl
      exact hmem hq
    rw [closings, List.countP_cons, ih hnodup fun q hq => Nat.lt_of_lt_of_le (hps q hq) hclose.length_le, hstays,
      openAmong, openAmong, List.countP_cons, close_fst hp]

theorem Meshed.nodup (hw : w.Meshed) {m : Mesh} (hm : w.mesh = some m) : m.peers.Nodup := by
  obtain ⟨engines, first, source, config, hhosts⟩ := hw m hm
  rw [hhosts.mesh]
  exact Mesh.nodup_peers_number engines first

end World

/-! ## Commands -/

def Command.isClosing : Command → Bool
  | .close _ | .closeMesh => true
  | _ => false

/-- How many peers a command closed, by its answer. -/
def Command.won : Command → Answer → Nat
  | .close _, .closed true => 1
  | .closeMesh, .count n => n
  | _, _ => 0

namespace Simulation

variable {ε ρ : Type}

/-- The peers that a command asks to close, in order. -/
def asked (s : Simulation ε ρ) : Command → List Nat
  | .close handle => (s.world.peerOfHandle handle).toList
  | .closeMesh => (s.world.mesh.map Mesh.peers).getD []
  | _ => []

variable [NormalSource ρ] [Consensus ε] {s s' : Simulation ε ρ} {a : Action} {as : List Action} {c : Command}
  {answer : Answer}

theorem Step.closedBy (hstep : Step s a s') (ha : ∀ p, a ≠ .close p) : s.world.ClosedBy [] s'.world := by
  cases hstep with
  | deliver _ _ hp | drop _ _ hp | send hp =>
    refine .of_flags (k := 0) ((World.map_peers_setPeer Peer.isClosed hp ?_).trans (List.append_nil _).symm)
    rfl
  | close => exact absurd rfl (ha _)
  | @addPeers peers hpeers =>
    refine .of_flags (k := peers.length) ?_
    rw [Machine.world_withWorld, List.map_append, List.append_cancel_left_eq, List.map_eq_replicate_iff]
    intro p hp
    rw [(hpeers p hp).1]
    rfl
  | tick | update =>
    rw [Machine.world_putAll]
    exact .of_peers rfl
  | _ => exact .of_peers rfl

theorem Trace.closedBy (htrace : Trace s as s') (has : ∀ a ∈ as, ∀ p, a ≠ .close p) : s.world.ClosedBy [] s'.world :=
  htrace.induct (P := fun t => s.world.ClosedBy [] t.world) (fun ha h hstep => h.trans (hstep.closedBy ha)) has
    (.refl s.world)

theorem closedBy_of_apply (hs : s.Sound) (h : s.apply c = .ok (answer, s')) :
    s.world.ClosedBy (s.world.closings (s.asked c)) s'.world ∧
      c.won answer = (s.world.closings (s.asked c)).countP Prod.snd := by
  by_cases hc : c.isClosing = true
  · cases c with
    | close handle =>
      simp only [apply, bind_eq_ok, require_eq_ok, pure_eq_ok] at h
      obtain ⟨p, hp, heq⟩ := h
      cases heq
      rw [asked, hp]
      refine ⟨.close (hs.world.peerOfHandle_lt hp), ?_⟩
      simp only [Option.toList_some, World.closings, List.countP_singleton]
      cases (s.world.close p).1 <;> rfl
    | closeMesh =>
      simp only [apply, bind_eq_ok, require_eq_ok, pure_eq_ok] at h
      obtain ⟨m, hm, heq⟩ := h
      cases heq
      rw [asked, hm]
      exact ⟨.closeAll (hs.world.mesh m hm), s.world.closeAll_eq_countP m.peers⟩
    | _ => cases hc
  · have hasked : s.asked c = [] := by cases c <;> first | rfl | exact absurd rfl hc
    have hwon : c.won answer = 0 := by cases c <;> first | rfl | exact absurd rfl hc
    obtain ⟨as, htrace, -, has⟩ := apply_actions hs h
    rw [hasked, hwon]
    refine ⟨htrace.closedBy fun a ha p heq => ?_, rfl⟩
    have hwithin := has a ha
    rw [heq] at hwithin
    obtain ⟨handle, rfl⟩ | rfl : (∃ handle, c = .close handle) ∨ c = .closeMesh := hwithin
    · exact hc rfl
    · exact hc rfl

end Simulation

/-! ## Calls that overlap -/

/-- A call that closes a mesh and is under way: the peers that it has not come to, and how many it has closed. -/
structure Sweep where
  mesh : Mesh
  rest : List Nat
  count : Nat

/-- A simulation with the meshes it has had so far, and the calls that have begun to close one. -/
structure Concurrent (ε ρ : Type) where
  simulation : Simulation ε ρ
  meshes : List Mesh
  sweeps : List Sweep

inductive Moment where
  /-- A command, all at once. -/
  | command (c : Command)
  /-- A call begins to close a mesh. -/
  | begin (mesh : Nat)
  /-- A call closes the next peer of its mesh, or is over and answers. -/
  | proceed (sweep : Nat)

/-- Whether a peer may be closed other than by the call of this number. -/
def Moment.isOther (sweep : Nat) : Moment → Bool
  | .command c => c.isClosing
  | .begin _ => false
  | .proceed n => n ≠ sweep

/-- How many peers a command closed, by its answer. -/
def Moment.won : Moment → Answer → Nat
  | .command c, answer => c.won answer
  | _, _ => 0

namespace Concurrent

variable {ε ρ : Type}

abbrev world (c : Concurrent ε ρ) : World ε ρ := c.simulation.world

def start (clock : Instant) (engines : List ε) : Concurrent ε ρ := ⟨Simulation.start clock engines, [], []⟩

/-- The number of peers closed by the calls that have begun to close a mesh. -/
def swept (c : Concurrent ε ρ) : Nat := (c.sweeps.map Sweep.count).sum

/-- The peers that are asked to close, in order. -/
def asked (c : Concurrent ε ρ) : Moment → List Nat
  | .command x => c.simulation.asked x
  | .begin _ => []
  | .proceed n => (c.sweeps[n]?.bind fun x => x.rest.head?).toList

/-- The same, each with whether it was open until then. -/
def closings (c : Concurrent ε ρ) (m : Moment) : List (Nat × Bool) := c.world.closings (c.asked m)

variable [NormalSource ρ] [Consensus ε]

def step (c : Concurrent ε ρ) : Moment → Except Refusal (Answer × Concurrent ε ρ)
  | .command x => do
    let (answer, s) ← c.simulation.apply x
    return (answer, { c with simulation := s, meshes := c.meshes ++ s.world.mesh.toList })
  | .begin n => do
    let m ← Simulation.require c.meshes[n]?
    return (.done, { c with sweeps := c.sweeps ++ [⟨m, m.peers, 0⟩] })
  | .proceed n => do
    let x ← Simulation.require c.sweeps[n]?
    match x.rest with
    | [] => return (.count x.count, c)
    | p :: rest =>
      let (closed, w) := c.world.close p
      let sweeps := c.sweeps.set n ⟨x.mesh, rest, x.count + if closed then 1 else 0⟩
      return (.closed closed, { c with simulation := c.simulation.withWorld w, sweeps })

abbrev run (c : Concurrent ε ρ) (ms : List Moment) : Except Refusal (List Answer × Concurrent ε ρ) :=
  Script.run step c ms

/-- What holds between the moments of a run: the calls that have begun are on their way through meshes that were built,
and what they have come past is closed. -/
structure Sound (c : Concurrent ε ρ) : Prop where
  simulation : c.simulation.Sound
  meshed : c.world.Meshed
  meshes : ∀ m ∈ c.meshes, m.peers.Nodup ∧ ∀ p ∈ m.peers, p < c.world.peers.length
  sweeps : ∀ x ∈ c.sweeps, x.mesh ∈ c.meshes ∧
    ∃ past, x.mesh.peers = past ++ x.rest ∧ ∀ p ∈ past, c.world.isClosed p = true

variable {c c' : Concurrent ε ρ} {m : Moment} {answer : Answer}

theorem step_cases (h : c.step m = .ok (answer, c')) :
    (∃ x s, m = .command x ∧ c.simulation.apply x = .ok (answer, s) ∧
      c' = { c with simulation := s, meshes := c.meshes ++ s.world.mesh.toList }) ∨
    (∃ n mesh, m = .begin n ∧ c.meshes[n]? = some mesh ∧
      c' = { c with sweeps := c.sweeps ++ [⟨mesh, mesh.peers, 0⟩] }) ∨
    (∃ n x, m = .proceed n ∧ c.sweeps[n]? = some x ∧ x.rest = [] ∧ c' = c) ∨
    ∃ n x p rest, m = .proceed n ∧ c.sweeps[n]? = some x ∧ x.rest = p :: rest ∧
      c' = { c with
        simulation := c.simulation.withWorld (c.world.close p).2
        sweeps := c.sweeps.set n ⟨x.mesh, rest, x.count + if (c.world.close p).1 then 1 else 0⟩ } := by
  cases m with
  | command x =>
    simp only [step, Simulation.bind_eq_ok, Simulation.pure_eq_ok] at h
    obtain ⟨⟨answer, s⟩, happly, heq⟩ := h
    cases heq
    exact .inl ⟨x, s, rfl, happly, rfl⟩
  | begin n =>
    simp only [step, Simulation.bind_eq_ok, Simulation.require_eq_ok, Simulation.pure_eq_ok] at h
    obtain ⟨mesh, hmesh, heq⟩ := h
    cases heq
    exact .inr (.inl ⟨n, mesh, rfl, hmesh, rfl⟩)
  | proceed n =>
    simp only [step, Simulation.bind_eq_ok, Simulation.require_eq_ok] at h
    obtain ⟨x, hx, h⟩ := h
    split at h
    · rename_i hrest
      rw [Simulation.pure_eq_ok] at h
      cases h
      exact .inr (.inr (.inl ⟨n, x, rfl, hx, hrest, rfl⟩))
    · rename_i p rest hrest
      rw [Simulation.pure_eq_ok] at h
      cases h
      exact .inr (.inr (.inr ⟨n, x, p, rest, rfl, hx, hrest, rfl⟩))

theorem sum_map_set {α : Type} (f : α → Nat) {l : List α} {n : Nat} {x : α} (hx : l[n]? = some x) (y : α) :
    ((l.set n y).map f).sum + f x = (l.map f).sum + f y := by
  induction l generalizing n with
  | nil => cases hx
  | cons z l ih =>
    cases n with
    | zero =>
      obtain rfl : z = x := Option.some.inj hx
      simp only [List.set_cons_zero, List.map_cons, List.sum_cons]
      omega
    | succ n =>
      have hrest := ih hx
      simp only [List.set_cons_succ, List.map_cons, List.sum_cons]
      omega

omit [NormalSource ρ] [Consensus ε] in
theorem Sound.rest_lt (h : c.Sound) {n : Nat} {x : Sweep} (hx : c.sweeps[n]? = some x) :
    ∀ p ∈ x.rest, p < c.world.peers.length := by
  obtain ⟨hmesh, past, hpast, -⟩ := h.sweeps x (List.mem_of_getElem? hx)
  exact fun p hp => (h.meshes _ hmesh).2 p (hpast ▸ List.mem_append_right _ hp)

theorem closedBy_step (hc : c.Sound) (h : c.step m = .ok (answer, c')) :
    c.world.ClosedBy (c.closings m) c'.world ∧
      m.won answer + c'.swept = c.swept + (c.closings m).countP Prod.snd := by
  obtain ⟨x, s, rfl, happly, rfl⟩ | ⟨n, mesh, rfl, hmesh, rfl⟩ | ⟨n, x, rfl, hx, hrest, rfl⟩ |
    ⟨n, x, p, rest, rfl, hx, hrest, rfl⟩ := step_cases h
  · obtain ⟨hclosed, hwon⟩ := Simulation.closedBy_of_apply hc.simulation happly
    exact ⟨hclosed, by rw [Nat.add_comm, closings, asked, ← hwon]; rfl⟩
  · exact ⟨.refl c.world, by simp [Moment.won, swept, closings, asked, World.closings]⟩
  · have hnone : c'.closings (.proceed n) = [] := by simp [closings, asked, hx, hrest, World.closings]
    rw [hnone]
    exact ⟨.refl c'.world, by simp [Moment.won]⟩
  · have hone : c.closings (.proceed n) = [(p, (c.world.close p).1)] := by
      simp [closings, asked, hx, hrest, World.closings]
    have hsum := sum_map_set Sweep.count hx ⟨x.mesh, rest, x.count + if (c.world.close p).1 then 1 else 0⟩
    rw [hone, List.countP_singleton]
    refine ⟨.close (hc.rest_lt hx p (hrest ▸ List.mem_cons_self)), ?_⟩
    simp only [Moment.won, swept] at hsum ⊢
    omega

theorem sound_step (hc : c.Sound) (h : c.step m = .ok (answer, c')) : c'.Sound := by
  have hclosed := (closedBy_step hc h).1
  have hmeshes : ∀ m ∈ c.meshes, m.peers.Nodup ∧ ∀ p ∈ m.peers, p < c'.world.peers.length := fun m hm =>
    ⟨(hc.meshes m hm).1, fun p hp => Nat.lt_of_lt_of_le ((hc.meshes m hm).2 p hp) hclosed.length_le⟩
  have hpast : ∀ {past : List Nat}, (∀ p ∈ past, c.world.isClosed p = true) → ∀ p ∈ past, c'.world.isClosed p = true :=
    fun hpast p hp => (hclosed.isClosed p).2 (.inl (hpast p hp))
  obtain ⟨x, s, rfl, happly, rfl⟩ | ⟨n, mesh, rfl, hmesh, rfl⟩ | ⟨n, x, rfl, hx, hrest, rfl⟩ |
    ⟨n, x, p, rest, rfl, hx, hrest, rfl⟩ := step_cases h
  · obtain ⟨as, htrace, -, -⟩ := Simulation.apply_actions hc.simulation happly
    have hs := htrace.sound hc.simulation
    have hmeshed := Simulation.meshed_of_apply hc.simulation hc.meshed happly
    refine ⟨hs, hmeshed, fun m hm => ?_, fun x hx => ?_⟩
    · rcases List.mem_append.1 hm with hm | hm
      · exact hmeshes m hm
      · have hm := Option.mem_toList.1 hm
        exact ⟨World.Meshed.nodup hmeshed hm, hs.world.mesh m hm⟩
    · obtain ⟨hmem, past, heq, hall⟩ := hc.sweeps x hx
      exact ⟨List.mem_append_left _ hmem, past, heq, hpast hall⟩
  · refine ⟨hc.simulation, hc.meshed, hc.meshes, fun x hx => ?_⟩
    rcases List.mem_append.1 hx with hx | hx
    · exact hc.sweeps x hx
    · obtain rfl := List.mem_singleton.1 hx
      exact ⟨List.mem_of_getElem? hmesh, [], rfl, by simp⟩
  · exact hc
  · have hlt := hc.rest_lt hx p (hrest ▸ List.mem_cons_self)
    have hstep := Simulation.close_step hc.simulation hlt
    have hmeshed := hstep.meshed hc.meshed fun _ heq => Action.noConfusion heq
    refine ⟨hstep.sound hc.simulation, hmeshed, hmeshes, fun y hy => ?_⟩
    rcases List.mem_or_eq_of_mem_set hy with hy | rfl
    · obtain ⟨hmem, past, heq, hall⟩ := hc.sweeps y hy
      exact ⟨hmem, past, heq, hpast hall⟩
    · -- the peer that was next is one more that the call has come past
      obtain ⟨hmem, past, heq, hall⟩ := hc.sweeps x (List.mem_of_getElem? hx)
      refine ⟨hmem, past ++ [p], by rw [heq, hrest, List.append_assoc]; rfl, ?_⟩
      refine List.forall_mem_append.2 ⟨hpast hall, List.forall_mem_singleton.2 ?_⟩
      refine (hclosed.isClosed p).2 (.inr ?_)
      rw [closings, World.map_fst_closings, asked, hx]
      simp [hrest]

omit [NormalSource ρ] [Consensus ε] in
theorem sound_start (clock : Instant) (engines : List ε) : (start clock engines : Concurrent ε ρ).Sound :=
  ⟨.start clock engines, nofun, nofun, nofun⟩

variable {ms : List Moment} {answers : List Answer}

theorem sound_run (hc : c.Sound) (hrun : c.run ms = .ok (answers, c')) : c'.Sound :=
  Script.run_induct (fun hc h => sound_step hc h) hc hrun

theorem closedBy_run (hc : c.Sound) (hrun : c.run ms = .ok (answers, c')) :
    c.world.ClosedBy (Script.collect step closings c ms) c'.world ∧
      (List.zipWith Moment.won ms answers).sum + c'.swept =
        c.swept + (Script.collect step closings c ms).countP Prod.snd := by
  induction ms generalizing c answers with
  | nil =>
    cases hrun
    exact ⟨.refl c'.world, by simp [Script.collect]⟩
  | cons m ms ih =>
    obtain ⟨answer, c₁, rest, hstep, hrest, rfl⟩ := Script.run_cons_eq_ok.1 hrun
    obtain ⟨hclosed, hwon⟩ := closedBy_step hc hstep
    obtain ⟨hclosed', hwon'⟩ := ih (sound_step hc hstep) hrest
    rw [Script.collect_cons hstep]
    refine ⟨hclosed.trans hclosed', ?_⟩
    rw [List.countP_append, List.zipWith_cons_cons, List.sum_cons]
    omega

/-! ## A call on its own -/

theorem map_fst_closings (c : Concurrent ε ρ) (ms : List Moment) :
    (Script.collect step closings c ms).map Prod.fst = Script.collect step asked c ms := by
  have hfst : (fun (c : Concurrent ε ρ) m => (c.closings m).map Prod.fst) = asked := by
    funext c m
    exact c.world.map_fst_closings (c.asked m)
  rw [← Script.collect_map, hfst]

/-- While no other call closes a peer, what the call has closed and what is still open on its way add up to the same. -/
theorem Sound.alone_step (hc : c.Sound) {n k : Nat} {x : Sweep} (hx : c.sweeps[n]? = some x)
    (hk : x.count + c.world.openAmong x.rest = k) (hm : m.isOther n = false) (h : c.step m = .ok (answer, c')) :
    ∃ y, c'.sweeps[n]? = some y ∧ y.mesh = x.mesh ∧ y.count + c'.world.openAmong y.rest = k := by
  have hclosed := (closedBy_step hc h).1
  have hasked : (c.closings m).map Prod.fst = c.asked m := c.world.map_fst_closings _
  obtain ⟨z, s, rfl, happly, rfl⟩ | ⟨i, mesh, rfl, hmesh, rfl⟩ | ⟨i, z, rfl, hz, hrest, rfl⟩ |
    ⟨i, z, p, rest, rfl, hz, hrest, rfl⟩ := step_cases h
  · have hnone : c.asked (.command z) = [] := by cases z <;> first | rfl | cases hm
    refine ⟨x, hx, rfl, ?_⟩
    rw [hclosed.openAmong_eq fun p _ => by rw [hasked, hnone]; exact List.not_mem_nil, hk]
  · exact ⟨x, (List.getElem?_append_left (List.getElem?_eq_some_iff.1 hx).1).trans hx, rfl, hk⟩
  · exact ⟨x, hx, rfl, hk⟩
  · obtain rfl : i = n := by simpa [Moment.isOther] using hm
    obtain rfl := Option.some.inj (hx.symm.trans hz)
    obtain ⟨hmem, past, heq, -⟩ := hc.sweeps x (List.mem_of_getElem? hx)
    -- the peers that are still to come are others than this one, and stay as they are
    have hnodup : (p :: rest).Nodup :=
      hrest ▸ (heq ▸ (hc.meshes _ hmem).1).sublist (List.sublist_append_right past x.rest)
    have hone : c.asked (.proceed i) = [p] := by simp [asked, hx, hrest]
    have hstays : World.openAmong (c.world.close p).2 rest = c.world.openAmong rest := by
      refine hclosed.openAmong_eq fun q hq => ?_
      rw [hasked, hone, List.mem_singleton]
      rintro rfl
      exact (List.nodup_cons.1 hnodup).1 hq
    have hfst := World.close_fst (hc.rest_lt hx p (hrest ▸ List.mem_cons_self))
    refine ⟨_, List.getElem?_set_self (List.getElem?_eq_some_iff.1 hx).1, rfl, ?_⟩
    show x.count + (if (c.world.close p).1 then 1 else 0) + World.openAmong (c.world.close p).2 rest = k
    rw [hrest, World.openAmong, List.countP_cons, ← hfst] at hk
    rw [hstays, World.openAmong]
    omega

theorem Sound.alone_run (hc : c.Sound) {n k : Nat} {x : Sweep} (hx : c.sweeps[n]? = some x)
    (hk : x.count + c.world.openAmong x.rest = k) (hms : ∀ m ∈ ms, m.isOther n = false)
    (hrun : c.run ms = .ok (answers, c')) :
    ∃ y, c'.sweeps[n]? = some y ∧ y.mesh = x.mesh ∧ y.count + c'.world.openAmong y.rest = k := by
  induction ms generalizing c x answers with
  | nil =>
    cases hrun
    exact ⟨x, hx, rfl, hk⟩
  | cons m ms ih =>
    obtain ⟨answer, c₁, rest, hstep, hrest, -⟩ := Script.run_cons_eq_ok.1 hrun
    obtain ⟨hm, hms⟩ := List.forall_mem_cons.1 hms
    obtain ⟨y, hy, hmesh, hk₁⟩ := hc.alone_step hx hk hm hstep
    obtain ⟨z, hz, hmesh', hk₂⟩ := ih (sound_step hc hstep) hy hk₁ hms hrest
    exact ⟨z, hz, hmesh'.trans hmesh, hk₂⟩

/-- A call that proceeds without a break closes its peers as the command for a whole mesh does. -/
theorem run_proceed {n : Nat} {x : Sweep} (hx : c.sweeps[n]? = some x) :
    ∃ answers, c.run (.replicate x.rest.length (.proceed n)) = .ok (answers,
      { c with
        simulation := c.simulation.withWorld (c.world.closeAll x.rest).2
        sweeps := c.sweeps.set n ⟨x.mesh, [], x.count + (c.world.closeAll x.rest).1⟩ }) := by
  obtain ⟨mesh, rest, count⟩ := x
  obtain ⟨hn, hget⟩ := List.getElem?_eq_some_iff.1 hx
  induction rest generalizing c count with
  | nil =>
    have hsame : c.sweeps.set n ⟨mesh, [], count⟩ = c.sweeps := by rw [← hget, List.set_getElem_self]
    refine ⟨[], ?_⟩
    show Except.ok ([], c) = .ok ([], { c with simulation := c.simulation, sweeps := c.sweeps.set n ⟨mesh, [], count⟩ })
    rw [hsame]
  | cons p rest ih =>
    let c₁ : Concurrent ε ρ := { c with
      simulation := c.simulation.withWorld (c.world.close p).2
      sweeps := c.sweeps.set n ⟨mesh, rest, count + if (c.world.close p).1 then 1 else 0⟩ }
    have hstep : c.step (.proceed n) = .ok (.closed (c.world.close p).1, c₁) := by
      rw [step, hx]
      rfl
    have hx₁ : c₁.sweeps[n]? = some ⟨mesh, rest, _⟩ := List.getElem?_set_self hn
    obtain ⟨hn₁, hget₁⟩ := List.getElem?_eq_some_iff.1 hx₁
    obtain ⟨answers, hrest⟩ := ih _ hx₁ hn₁ hget₁
    refine ⟨_, Script.run_cons_eq_ok.2 ⟨_, c₁, answers, hstep, hrest.trans ?_, rfl⟩⟩
    simp only [c₁, List.set_set, World.closeAll, Nat.add_assoc]
    rfl

theorem Sound.alone (hc : c.Sound) {i : Nat} {c₁ c₂ : Concurrent ε ρ} {x : Sweep}
    (hbegin : c.step (.begin i) = .ok (answer, c₁)) (hrun : c₁.run ms = .ok (answers, c₂))
    (hms : ∀ m ∈ ms, m.isOther c.sweeps.length = false) (hx : c₂.sweeps[c.sweeps.length]? = some x)
    (hrest : x.rest = []) : c.meshes[i]? = some x.mesh ∧ x.count = c.world.openAmong x.mesh.peers := by
  have hc₁ := sound_step hc hbegin
  simp only [step, Simulation.bind_eq_ok, Simulation.require_eq_ok, Simulation.pure_eq_ok] at hbegin
  obtain ⟨mesh, hmesh, heq⟩ := hbegin
  cases heq
  obtain ⟨y, hy, hsame, hcount⟩ :=
    hc₁.alone_run (k := c.world.openAmong mesh.peers) List.getElem?_concat_length (Nat.zero_add _) hms hrun
  obtain rfl := Option.some.inj (hx.symm.trans hy)
  rw [hsame]
  rw [hrest] at hcount
  exact ⟨hmesh, hcount⟩

theorem Sound.atOnce (hc : c.Sound) {n : Nat} (h : c.step (.command .closeMesh) = .ok (.count n, c')) :
    ∃ m, c.world.mesh = some m ∧ n = c.world.openAmong m.peers ∧ ∀ p ∈ m.peers, c'.world.isClosed p = true := by
  obtain ⟨hclosed, -⟩ := closedBy_step hc h
  simp only [step, Simulation.apply, Simulation.bind_eq_ok, Simulation.require_eq_ok, Simulation.pure_eq_ok] at h
  obtain ⟨⟨answer, s⟩, ⟨m, hm, happly⟩, heq⟩ := h
  cases happly
  cases heq
  have hasked : c.asked (.command .closeMesh) = m.peers := by rw [asked, Simulation.asked, hm]; rfl
  refine ⟨m, hm, ?_, fun p hp => (hclosed.isClosed p).2 (.inr ?_)⟩
  · rw [World.closeAll_eq_countP, World.countP_closings (hc.meshed.nodup hm) (hc.simulation.world.mesh m hm)]
  · rw [closings, World.map_fst_closings, hasked]
    exact hp

/-- The peers that a run asked to close, in order. -/
def everAsked (c : Concurrent ε ρ) (ms : List Moment) : List Nat := Script.collect step asked c ms

/-- The same, each with whether it was open until then. -/
def everClosed (c : Concurrent ε ρ) (ms : List Moment) : List (Nat × Bool) := Script.collect step closings c ms

/-- What a run of the moments `ms` from `c₀` to `c` shows of the calls that close peers. -/
structure Accounts (c₀ : Concurrent ε ρ) (ms : List Moment) (answers : List Answer) (c : Concurrent ε ρ) : Prop where
  /-- A peer is closed by one call if it was ever asked to close, and else by none. -/
  once : ∀ p, (c₀.everClosed ms).count (p, true) = if p ∈ c₀.everAsked ms then 1 else 0
  isClosed : ∀ p, c.world.isClosed p = true ↔ p ∈ c₀.everAsked ms
  /-- The answers of all calls together, with what the overlapping ones have counted. -/
  results : (List.zipWith Moment.won ms answers).sum + c.swept = c.world.closedCount
  distinct : c.world.closedCount = (c₀.everAsked ms).dedup.length
  /-- A call that is over has closed its mesh. -/
  swept : ∀ x ∈ c.sweeps, x.rest = [] → ∀ p ∈ x.mesh.peers, c.world.isClosed p = true
  /-- A call that nothing interrupts counts the peers of the mesh that were open, and closes the mesh. -/
  atOnce : ∀ n c', c.step (.command .closeMesh) = .ok (.count n, c') → ∃ m, c.world.mesh = some m ∧
    n = c.world.openAmong m.peers ∧ ∀ p ∈ m.peers, c'.world.isClosed p = true
  /-- So does one during which no other call closes a peer. -/
  alone : ∀ i answer c₁ ms answers c₂ x, c.step (.begin i) = .ok (answer, c₁) → c₁.run ms = .ok (answers, c₂) →
    (∀ m ∈ ms, m.isOther c.sweeps.length = false) → c₂.sweeps[c.sweeps.length]? = some x → x.rest = [] →
      c.meshes[i]? = some x.mesh ∧ x.count = c.world.openAmong x.mesh.peers

/-- However calls to close a peer or a mesh interleave with each other and with anything else, each peer is closed by
exactly one of those that come to it, and the answers add up to the number of peers closed. -/
theorem one_winner_each {clock : Instant} {engines : List ε}
    (hrun : (start clock engines : Concurrent ε ρ).run ms = .ok (answers, c)) :
    (start clock engines).Accounts ms answers c := by
  have hstart : (start clock engines : Concurrent ε ρ).Sound := sound_start clock engines
  have hopen : ∀ p, (start clock engines : Concurrent ε ρ).world.isClosed p = false := fun _ => rfl
  have hc := sound_run hstart hrun
  obtain ⟨hclosed, hresults⟩ := closedBy_run hstart hrun
  have htotal : c.world.closedCount = ((start clock engines).everClosed ms).countP Prod.snd :=
    hclosed.total.trans (Nat.zero_add _)
  have hasked : (start clock engines : Concurrent ε ρ).everAsked ms = _ := (map_fst_closings _ ms).symm
  constructor
  case once =>
    intro p
    have hwins := hclosed.wins p
    simp only [hopen p, true_and] at hwins
    rw [hasked]
    exact hwins
  case isClosed =>
    intro p
    rw [hclosed.isClosed, hopen, hasked]
    exact ⟨fun h => h.resolve_left Bool.false_ne_true, .inr⟩
  case results => rw [hresults, htotal]; exact Nat.zero_add _
  case distinct => rw [htotal, hasked]; exact hclosed.count_wins hopen
  case swept =>
    intro x hx hrest p hp
    obtain ⟨-, past, heq, hall⟩ := hc.sweeps x hx
    rw [heq, hrest, List.append_nil] at hp
    exact hall p hp
  case atOnce => exact fun _ _ => hc.atOnce
  case alone => exact fun _ _ _ _ _ _ _ => hc.alone

def triad : Concurrent Engine Random.Stream := ⟨Simulation.trio, [], []⟩

/-- Two calls close the mesh of three engines, while a third one and a call on one of its peers come between. -/
def racing : List Moment :=
  [.command (.buildMesh Simulation.jittery none), .command (.holdPeer 0 1), .begin 0, .begin 0, .proceed 0, .proceed 1,
    .proceed 1, .command (.close 0), .proceed 0, .command .closeMesh, .proceed 1, .proceed 0]

theorem one_winner_each_racing : ∃ answers c, triad.run racing = .ok (answers, c) ∧ triad.Accounts racing answers c ∧
    c.sweeps.map Sweep.count = [1, 1] ∧ (List.zipWith Moment.won racing answers).sum = 4 ∧ c.world.closedCount = 6 := by
  obtain ⟨⟨answers, c⟩, hrun, hcheck⟩ := Script.exists_of_any (x := triad.run racing)
    (p := fun r => r.2.sweeps.map Sweep.count = [1, 1] && (List.zipWith Moment.won racing r.1).sum = 4)
    (by decide +kernel)
  simp only [Bool.and_eq_true, decide_eq_true_eq] at hcheck
  obtain ⟨hcounts, hwon⟩ := hcheck
  have haccounts : triad.Accounts racing answers c := one_winner_each hrun
  refine ⟨answers, c, hrun, haccounts, hcounts, hwon, ?_⟩
  rw [← haccounts.results, hwon, swept, hcounts]
  rfl

end Concurrent

end VirtualMesh

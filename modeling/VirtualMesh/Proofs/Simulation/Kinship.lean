import VirtualMesh.Proofs.Scheduler.Parallel
import VirtualMesh.Proofs.Simulation.Flights
import VirtualMesh.Proofs.Simulation.Ticks

/-!
# Worlds side by side

Two simulations with the same peers may differ in their engines, in the payloads of their messages, in the
place of their clocks on the time line and in all that concerns one hidden peer. A `Kinship` says in which
of these they do, and each change of a world is shown to preserve it: one that both worlds undergo, and, for
the hidden peer, one that only one of them undergoes.
-/

namespace VirtualMesh

structure Kinship (ε ε' : Type) where
  shift : Int
  hidden : Option Nat
  payload : Bytes → Bytes → Prop
  engine : ε → ε' → Prop
  verdict : Verdict → Verdict → Prop
  /-- The faults that may stop one run and not the other. -/
  excused : Fault → Prop

variable {ε ε' ρ : Type}

inductive Task.Alike (k : Kinship ε ε') : Task → Task → Prop
  | delivery {p : Nat} {payload payload' : Bytes} {delay : Delay} (h : k.payload payload payload') :
      Alike k (.delivery p payload delay) (.delivery p payload' delay)
  | tick {p : Nat} : Alike k (.tick p) (.tick p)

theorem Task.Alike.peer_eq {k : Kinship ε ε'} {t t' : Task} (h : t.Alike k t') : t'.peer = t.peer := by
  cases h <;> rfl

/-- What is sent to alike peers. -/
def Message.Alike (k : Kinship ε ε') (m m' : Nat × Bytes) : Prop := m'.1 = m.1 ∧ k.payload m.2 m'.2

def Outgoing.Alike (k : Kinship ε ε') (o o' : Outgoing) : Prop := o'.link = o.link ∧ k.payload o.payload o'.payload

namespace Kinship

def shows (k : Kinship ε ε') (p : Nat) : Bool := k.hidden != some p

def likeness (k : Kinship ε ε') : Likeness Task where
  shift := k.shift
  shown t := k.shows t.peer
  task := Task.Alike k
  shown_eq h := congrArg k.shows h.peer_eq

theorem shows_of_hidden_eq_none {k : Kinship ε ε'} (h : k.hidden = none) (p : Nat) : k.shows p = true := by
  rw [shows, h]
  rfl

theorem total_of_hidden_eq_none {k : Kinship ε ε'} (h : k.hidden = none) : k.likeness.Total := fun t =>
  k.shows_of_hidden_eq_none h t.peer

theorem isSome_hidden {k : Kinship ε ε'} {p : Nat} (h : k.shows p = false) : k.hidden.isSome = true := by
  have heq : k.hidden = some p := by simpa [shows] using h
  rw [heq]
  rfl

/-- The same comparison from the side of the second simulation. -/
def flip (k : Kinship ε ε') : Kinship ε' ε where
  shift := -k.shift
  hidden := k.hidden
  payload b b' := k.payload b' b
  engine x y := k.engine y x
  verdict v v' := k.verdict v' v
  excused := k.excused

theorem flip_flip (k : Kinship ε ε') : k.flip.flip = k := by
  simp only [flip, Int.neg_neg]

theorem flip_likeness (k : Kinship ε ε') : k.flip.likeness = k.likeness.flip := by
  have htask : Task.Alike k.flip = fun t u => Task.Alike k u t := by
    funext t u
    refine propext ⟨fun h => ?_, fun h => ?_⟩
    · cases h with
      | delivery h => exact .delivery h
      | tick => exact .tick
    · cases h with
      | delivery h => exact .delivery h
      | tick => exact .tick
  simp only [likeness, Likeness.flip, htask]
  rfl

variable [Consensus ε] [Consensus ε']

/-- Engines that are alike stay so, whatever both of them are given; and, if a peer is hidden, also if only one
of them is given a message or updated. -/
structure Lawful (k : Kinship ε ε') : Prop where
  payload_refl : ∀ b, k.payload b b
  payload_length : ∀ {b b'}, k.payload b b' → b'.length = b.length
  receive : ∀ {x y b b'}, k.engine x y → k.payload b b' →
    k.engine (Consensus.receive x b).1 (Consensus.receive y b').1 ∧
      k.verdict (Consensus.receive x b).2 (Consensus.receive y b').2
  update : ∀ {x y}, k.engine x y → k.engine (Consensus.update x).1 (Consensus.update y).1 ∧
    k.verdict (Consensus.update x).2 (Consensus.update y).2
  propose : ∀ {x y}, k.engine x y → ∀ alive state,
    Tally k.excused (fun r r' => k.engine r.1 r'.1 ∧ List.Forall₂ (Outgoing.Alike k) r.2 r'.2)
      (Consensus.propose x alive state) (Consensus.propose y alive state)
  attach : ∀ {x y}, k.engine x y → ∀ links, Option.Rel k.engine (Consensus.attach? x links) (Consensus.attach? y links)
  instants : k.shift ≠ 0 → k.excused .instantOverflow
  faults : k.hidden.isSome = true → ∀ f, k.excused f
  receive_left : k.hidden.isSome = true → ∀ {x y}, k.engine x y → ∀ b, k.engine (Consensus.receive x b).1 y
  receive_right : k.hidden.isSome = true → ∀ {x y}, k.engine x y → ∀ b, k.engine x (Consensus.receive y b).1
  update_left : k.hidden.isSome = true → ∀ {x y}, k.engine x y → k.engine (Consensus.update x).1 y
  update_right : k.hidden.isSome = true → ∀ {x y}, k.engine x y → k.engine x (Consensus.update y).1

theorem Lawful.flip {k : Kinship ε ε'} (hk : k.Lawful) : k.flip.Lawful where
  payload_refl := hk.payload_refl
  payload_length h := (hk.payload_length h).symm
  receive h hb := hk.receive h hb
  update h := hk.update h
  propose h alive state := (hk.propose h alive state).flip.imp fun hr => ⟨hr.1, .flip (hr.2.imp fun _ _ ho => ⟨ho.1.symm, ho.2⟩)⟩
  attach {x y} h links := by
    have hrel := hk.attach h links
    generalize Consensus.attach? y links = o at hrel
    generalize Consensus.attach? x links = o' at hrel
    cases hrel with
    | some h => exact .some h
    | none => exact .none
  instants h := hk.instants fun h0 => h (by show -k.shift = 0; omega)
  faults := hk.faults
  receive_left hs _ _ h b := hk.receive_right hs h b
  receive_right hs _ _ h b := hk.receive_left hs h b
  update_left hs _ _ h := hk.update_right hs h
  update_right hs _ _ h := hk.update_left hs h

end Kinship

theorem optionRel_getElem? {α β : Type} {R : α → β → Prop} {l : List α} {l' : List β} (h : List.Forall₂ R l l') (i : Nat) :
    Option.Rel R l[i]? l'[i]? := by
  induction h generalizing i with
  | nil => exact .none
  | cons hx _ ih =>
    cases i with
    | zero => exact .some hx
    | succ i => simpa using ih i

theorem optionRel_of_map_eq {α β γ : Type} {f : α → γ} {g : β → γ} {o : Option α} {o' : Option β}
    (h : o.map f = o'.map g) : Option.Rel (fun a b => f a = g b) o o' := by
  cases o with
  | none =>
    cases o' with
    | none => exact .none
    | some b => cases h
  | some a =>
    cases o' with
    | none => cases h
    | some b => exact .some (Option.some.inj h)

theorem eq_of_forall₂ {α : Type} {R : α → α → Prop} (hR : ∀ {a b}, R a b → b = a) {l l' : List α}
    (h : List.Forall₂ R l l') : l' = l := by
  induction h with
  | nil => rfl
  | cons hx _ ih => rw [hR hx, ih]

theorem forall₂_modify {α β : Type} {R : α → β → Prop} {l : List α} {l' : List β} (h : List.Forall₂ R l l') {f : α → α}
    {g : β → β} (hfg : ∀ {a b}, R a b → R (f a) (g b)) (i : Nat) : List.Forall₂ R (l.modify i f) (l'.modify i g) := by
  induction h generalizing i with
  | nil => simp
  | cons hx h ih =>
    cases i with
    | zero => exact .cons (hfg hx) h
    | succ i => exact .cons hx (ih i)

theorem Peer.origin_eq_iff {peer peer' : Peer} : peer'.origin = peer.origin ↔
    peer'.engine = peer.engine ∧ peer'.source = peer.source ∧ peer'.config = peer.config := by
  simp [origin, fresh]

theorem Peer.origin_arrive {peer arrived : Peer} {delay : Delay} {size : Nat} (h : peer.arrive delay size = .ok arrived) :
    arrived.origin = peer.origin := by
  obtain ⟨stats, -, rfl⟩ := arrive_eq_ok.1 h
  rfl

namespace World

theorem setPeer_self {w : World ε ρ} {p : Nat} {peer : Peer} (hp : w.peers[p]? = some peer) : w.setPeer p peer = w := by
  obtain ⟨hlt, rfl⟩ := List.getElem?_eq_some_iff.1 hp
  rw [setPeer, List.set_getElem_self]

section
variable [Consensus ε] {w : World ε ρ} {p : Nat} {peer : Peer}

theorem update_eq_modify (hp : w.peers[p]? = some peer) (hopen : peer.isClosed = false) (clock : Instant) :
    w.update p clock = ⟨w.modifyEngine peer.engine fun x => (Consensus.update x).1, .armed,
      Ticker.arm peer.config.tick (.tick p) clock⟩ := by
  cases hx : w.engines[peer.engine]? with
  | none => simp [update, hp, hx, hopen, modifyEngine_eq_self hx]
  | some x => rw [update_eq hp hx hopen, modifyEngine_eq hx]

theorem update_eq_absent (hp : w.peers[p]? = none) (clock : Instant) : w.update p clock = ⟨w, .closed, []⟩ := by
  simp only [update, hp]

end

/-- Equal but for engines, which are alike, and for the hidden peer, which has kept its origin in both. -/
structure Alike (k : Kinship ε ε') (w : World ε ρ) (w' : World ε' ρ) : Prop where
  engines : List.Forall₂ k.engine w.engines w'.engines
  sources : w'.sources = w.sources
  origins : w'.origins = w.origins
  peers : ∀ p, k.shows p = true → w'.peers[p]? = w.peers[p]?
  handles : w'.handles = w.handles
  shared : w'.shared = w.shared
  mesh : w'.mesh = w.mesh
  links : w'.links = w.links
  linked : w'.linked = w.linked

namespace Alike

variable {k : Kinship ε ε'} {w w₁ : World ε ρ} {w' w₁' : World ε' ρ}

theorem ofEngines {engines : List ε} {engines' : List ε'} (h : List.Forall₂ k.engine engines engines') :
    Alike k (World.ofEngines engines : World ε ρ) (World.ofEngines engines') :=
  ⟨h, rfl, rfl, fun _ _ => rfl, rfl, rfl, rfl, rfl, rfl⟩

theorem flip (h : Alike k w w') : Alike k.flip w' w :=
  ⟨.flip h.engines, h.sources.symm, h.origins.symm, fun p hp => (h.peers p hp).symm, h.handles.symm, h.shared.symm,
    h.mesh.symm, h.links.symm, h.linked.symm⟩

theorem unflip (h : Alike k.flip w' w) : Alike k w w' := k.flip_flip ▸ h.flip

theorem length_peers (h : Alike k w w') : w'.peers.length = w.peers.length := by
  rw [← length_origins, h.origins, length_origins]

theorem length_engines (h : Alike k w w') : w'.engines.length = w.engines.length := h.engines.length_eq.symm

theorem peer_none (h : Alike k w w') {p : Nat} (hp : w.peers[p]? = none) : w'.peers[p]? = none := by
  rw [List.getElem?_eq_none_iff] at hp ⊢
  rw [h.length_peers]
  exact hp

theorem peer_some (h : Alike k w w') {p : Nat} {peer : Peer} (hp : w.peers[p]? = some peer) :
    ∃ peer', w'.peers[p]? = some peer' ∧ peer'.origin = peer.origin ∧ (k.shows p = true → peer' = peer) := by
  have ho : w'.origins[p]? = some peer.origin := by rw [h.origins, origin_of_peer hp]
  obtain ⟨peer', hp', horigin⟩ := exists_of_origin ho
  refine ⟨peer', hp', horigin, fun hshown => ?_⟩
  rw [h.peers p hshown, hp] at hp'
  exact (Option.some.inj hp').symm

theorem peer_rel (h : Alike k w w') (p : Nat) :
    Option.Rel (fun peer peer' : Peer => peer'.origin = peer.origin) w.peers[p]? w'.peers[p]? := by
  cases hp : w.peers[p]? with
  | none =>
    rw [h.peer_none hp]
    exact .none
  | some peer =>
    obtain ⟨peer', hp', horigin, -⟩ := h.peer_some hp
    rw [hp']
    exact .some horigin

theorem engine_none (h : Alike k w w') {i : Nat} (hi : w.engines[i]? = none) : w'.engines[i]? = none := by
  rw [List.getElem?_eq_none_iff] at hi ⊢
  rw [h.length_engines]
  exact hi

theorem engine_some (h : Alike k w w') {i : Nat} {x : ε} (hi : w.engines[i]? = some x) :
    ∃ y, w'.engines[i]? = some y ∧ k.engine x y := by
  have hrel := optionRel_getElem? h.engines i
  rw [hi] at hrel
  generalize w'.engines[i]? = o at hrel
  cases hrel with
  | some hxy => exact ⟨_, rfl, hxy⟩

/-! ## What is found in both worlds -/

theorem peerOfHandle_eq (h : Alike k w w') (handle : Nat) : w'.peerOfHandle handle = w.peerOfHandle handle := by
  rw [peerOfHandle, peerOfHandle, h.handles]

theorem peerOfLink_eq (h : Alike k w w') (number : Nat) : w'.peerOfLink number = w.peerOfLink number := by
  rw [peerOfLink, peerOfLink, h.links]

theorem hasLink_eq (h : Alike k w w') : w'.hasLink = w.hasLink := by
  funext number
  rw [hasLink, hasLink, h.links]

theorem isAlive_eq (h : Alike k w w') {p : Nat} (hp : k.shows p = true) : w'.isAlive p = w.isAlive p := by
  rw [isAlive, isAlive, isHeld, isHeld, h.handles, h.links, h.mesh, h.peers p hp]

/-- With nothing hidden only the engines differ. -/
theorem eq_with_engines (h : Alike k w w') (hhidden : k.hidden = none) :
    w' = { w with engines := w'.engines } := by
  have hpeers : w'.peers = w.peers := List.ext_getElem? fun p => h.peers p (k.shows_of_hidden_eq_none hhidden p)
  obtain ⟨-, hsources, -, -, hhandles, hshared, hmesh, hlinks, hlinked⟩ := h
  cases w
  cases w'
  cases hpeers
  cases hsources
  cases hhandles
  cases hshared
  cases hmesh
  cases hlinks
  cases hlinked
  rfl

/-! ## What both worlds undergo -/

theorem modifyEngine (h : Alike k w w') (i : Nat) {f : ε → ε} {g : ε' → ε'}
    (hfg : ∀ {x y}, k.engine x y → k.engine (f x) (g y)) : Alike k (w.modifyEngine i f) (w'.modifyEngine i g) :=
  { h with engines := forall₂_modify h.engines hfg i }

theorem setEngine (h : Alike k w w') {i : Nat} {x : ε} (hx : w.engines[i]? = some x) {x' : ε} {y' : ε'}
    (hxy : k.engine x' y') : Alike k (w.setEngine i x') (w'.setEngine i y') := by
  obtain ⟨y, hy, -⟩ := h.engine_some hx
  rw [← modifyEngine_eq hx fun _ => x', ← modifyEngine_eq hy fun _ => y']
  exact h.modifyEngine i fun _ => hxy

theorem setSource (h : Alike k w w') (i : Nat) (r : ρ) : Alike k (w.setSource i r) (w'.setSource i r) :=
  { h with sources := congrArg (·.set i r) h.sources }

theorem setPeer (h : Alike k w w') {p : Nat} {old new old' new' : Peer} (hp : w.peers[p]? = some old)
    (hp' : w'.peers[p]? = some old') (ho : new.origin = old.origin) (ho' : new'.origin = old'.origin)
    (hnew : k.shows p = true → new' = new) : Alike k (w.setPeer p new) (w'.setPeer p new') where
  engines := h.engines
  sources := h.sources
  origins := by rw [origins_setPeer hp ho, origins_setPeer hp' ho', h.origins]
  peers q hq := by
    show (w'.peers.set p new')[q]? = (w.peers.set p new)[q]?
    by_cases hpq : p = q
    · subst hpq
      rw [List.getElem?_set_self (List.getElem?_eq_some_iff.1 hp).1,
        List.getElem?_set_self (List.getElem?_eq_some_iff.1 hp').1, hnew hq]
    · rw [List.getElem?_set_ne hpq, List.getElem?_set_ne hpq, h.peers q hq]
  handles := h.handles
  shared := h.shared
  mesh := h.mesh
  links := h.links
  linked := h.linked

theorem link (h : Alike k w w') (owner : Nat) (peers : List Nat) :
    (w'.link owner peers).1 = (w.link owner peers).1 ∧ Alike k (w.link owner peers).2 (w'.link owner peers).2 := by
  refine ⟨?_, { h with links := ?_, linked := ?_ }⟩
  · rw [World.link, World.link, h.linked]
  · show w'.links ++ _ = w.links ++ _
    rw [h.links, h.linked]
  · show w'.linked + _ = w.linked + _
    rw [h.linked]

theorem addPeers (h : Alike k w w') (peers : List Peer) :
    Alike k { w with peers := w.peers ++ peers } { w' with peers := w'.peers ++ peers } :=
  { h with
    origins := by
      show (w'.peers ++ peers).map Peer.origin = (w.peers ++ peers).map Peer.origin
      rw [List.map_append, List.map_append]
      exact congrArg (· ++ _) h.origins
    peers := by
      intro p hp
      show (w'.peers ++ peers)[p]? = (w.peers ++ peers)[p]?
      rw [List.getElem?_append, List.getElem?_append, h.length_peers, h.peers p hp] }

/-! ## What only one world undergoes -/

theorem modifyEngine_left (h : Alike k w w') (i : Nat) {f : ε → ε} (hf : ∀ {x y}, k.engine x y → k.engine (f x) y) :
    Alike k (w.modifyEngine i f) w' := by
  have hmod := h.modifyEngine i (g := id) hf
  have hself : w'.modifyEngine i id = w' := by rw [World.modifyEngine, List.modify_id]
  rwa [hself] at hmod

theorem setEngine_left (h : Alike k w w') {i : Nat} {x x' : ε} (hx : w.engines[i]? = some x)
    (hx' : ∀ {y}, k.engine x y → k.engine x' y) : Alike k (w.setEngine i x') w' := by
  obtain ⟨y, hy, hxy⟩ := h.engine_some hx
  have hset := h.setEngine hx (hx' hxy)
  have hself : w'.setEngine i y = w' :=
    (modifyEngine_eq hy id).symm.trans (by rw [World.modifyEngine, List.modify_id])
  rwa [hself] at hset

theorem setEngine_right (h : Alike k w w') {i : Nat} {y y' : ε'} (hy : w'.engines[i]? = some y)
    (hy' : ∀ {x}, k.engine x y → k.engine x y') : Alike k w (w'.setEngine i y') :=
  (h.flip.setEngine_left hy hy').unflip

theorem setPeer_left (h : Alike k w w') {p : Nat} (hp : k.shows p = false) {old new : Peer}
    (hold : w.peers[p]? = some old) (ho : new.origin = old.origin) : Alike k (w.setPeer p new) w' := by
  obtain ⟨peer', hpeer', -, -⟩ := h.peer_some hold
  have hset := h.setPeer hold hpeer' ho rfl fun hshown => by rw [hp] at hshown; cases hshown
  rwa [World.setPeer_self hpeer'] at hset

theorem setPeer_right (h : Alike k w w') {p : Nat} (hp : k.shows p = false) {old new : Peer}
    (hold : w'.peers[p]? = some old) (ho : new.origin = old.origin) : Alike k w (w'.setPeer p new) :=
  (h.flip.setPeer_left hp hold ho).unflip

end Alike

/-! ## Tasks -/

/-- The instant for which an update puts the next tick into the queue; none if the time line ends before it. -/
def rearming (w : World ε ρ) (p : Nat) (clock : Instant) : List (Option Instant) :=
  match w.peers[p]? with
  | none => []
  | some peer => if peer.isClosed then [] else [clock.add? peer.config.tick]

/-- The same for a task, as it is handed to the handler. -/
def rearmingOf : Task × Instant × World ε ρ → List (Option Instant)
  | (.delivery .., _, _) => []
  | (.tick p, clock, w) => if w.isAlive p then w.rearming p clock else []

end World

/-- On different time lines a tick must not fall off the end of one of them. -/
def Kinship.Steady (k : Kinship ε ε') (instants : List (Option Instant)) : Prop := k.shift ≠ 0 → none ∉ instants

theorem Ticker.arm_alike {k : Kinship ε ε'} {c c' : Instant} (hc : c.Ahead k.shift c') (interval : Duration) (p : Nat)
    (hs : k.Steady [c.add? interval]) (hs' : k.Steady [c'.add? interval]) :
    List.Forall₂ (Submission.Alike k.likeness) (arm interval (.tick p) c) (arm interval (.tick p) c') := by
  unfold Instant.add? Kinship.Steady at hs hs'
  unfold arm Instant.add?
  rcases hc.shift?_cases interval.nanos with ⟨t, t', ht, ht', hahead⟩ | ⟨ht, ht'⟩ | ⟨hne, ht⟩ | ⟨hne, ht'⟩
  · rw [ht, ht']
    exact .cons ⟨hahead, .tick⟩ .nil
  · rw [ht, ht']
    exact .nil
  · exact absurd (List.mem_singleton.2 ht.symm) (hs hne)
  · exact absurd (List.mem_singleton.2 ht'.symm) (hs' hne)

namespace World.Alike

variable [Consensus ε] [Consensus ε'] {k : Kinship ε ε'} {w w₁ : World ε ρ} {w' : World ε' ρ} {p : Nat}

theorem deliver (h : Alike k w w') (hk : k.Lawful) (hp : k.shows p = true) {payload payload' : Bytes}
    (hpayload : k.payload payload payload') (delay : Delay) :
    Tally k.excused (fun r r' => r'.1 = r.1 ∧ Alike k r.2 r'.2) (w.deliver p payload delay)
      (w'.deliver p payload' delay) := by
  cases hpeer : w.peers[p]? with
  | none =>
    rw [deliver_eq_absent hpeer, deliver_eq_absent (h.peer_none hpeer)]
    exact .ok ⟨rfl, h⟩
  | some peer =>
    have hpeer' : w'.peers[p]? = some peer := (h.peers p hp).trans hpeer
    rw [deliver_eq_map hpeer, deliver_eq_map hpeer', hk.payload_length hpayload]
    cases harrive : peer.arrive delay payload.length with
    | error f => exact .error
    | ok arrived =>
      have horigin := Peer.origin_arrive harrive
      have hset := h.setPeer hpeer hpeer' horigin horigin fun _ => rfl
      cases hdrops : peer.drops with
      | true => exact .ok ⟨rfl, hset⟩
      | false => exact .ok ⟨rfl, hset.modifyEngine peer.engine fun hxy => (hk.receive hxy hpayload).1⟩

theorem update (h : Alike k w w') (hk : k.Lawful) (hp : k.shows p = true) {c c' : Instant}
    (hc : c.Ahead k.shift c') (hs : k.Steady (w.rearming p c)) (hs' : k.Steady (w'.rearming p c')) :
    Reaction.Alike k.likeness (World.Alike k) (w.update p c) (w'.update p c') := by
  cases hpeer : w.peers[p]? with
  | none =>
    rw [update_eq_absent hpeer, update_eq_absent (h.peer_none hpeer)]
    exact ⟨h, rfl, .nil⟩
  | some peer =>
    have hpeer' : w'.peers[p]? = some peer := (h.peers p hp).trans hpeer
    cases hclosed : peer.isClosed with
    | true =>
      rw [update_eq_closed hpeer hclosed, update_eq_closed hpeer' hclosed]
      exact ⟨h, rfl, .nil⟩
    | false =>
      simp only [World.rearming, hpeer, hclosed] at hs
      simp only [World.rearming, hpeer', hclosed] at hs'
      rw [update_eq_modify hpeer hclosed, update_eq_modify hpeer' hclosed]
      exact ⟨h.modifyEngine peer.engine fun hxy => (hk.update hxy).1, rfl, Ticker.arm_alike hc peer.config.tick p hs hs'⟩

/-- What a task does in two worlds, if its peer is shown. -/
theorem handler (h : Alike k w w') (hk : k.Lawful) {t t' : Task} (ht : t.Alike k t') (hp : k.shows t.peer = true)
    {c c' : Instant} (hc : c.Ahead k.shift c') (hs : k.Steady (rearmingOf (t, c, w)))
    (hs' : k.Steady (rearmingOf (t', c', w'))) :
    Tally k.excused (Reaction.Alike k.likeness (World.Alike k)) (World.handler t c w) (World.handler t' c' w') := by
  cases ht with
  | @delivery p payload payload' delay hpayload =>
    exact (h.deliver hk hp hpayload delay).map fun hr => ⟨hr.2, hr.1, .nil⟩
  | @tick p =>
    have halive : w'.isAlive p = w.isAlive p := h.isAlive_eq hp
    simp only [rearmingOf, halive] at hs hs'
    simp only [World.handler, halive]
    cases hw : w.isAlive p with
    | false => exact .ok ⟨h, rfl, .nil⟩
    | true =>
      rw [hw] at hs hs'
      have hupdate := h.update hk hp hc hs hs'
      exact .ok ⟨hupdate.world, congrArg Outcome.ticked hupdate.outcome, hupdate.submissions⟩

/-! ## Tasks of the hidden peer -/

theorem deliver_left (h : Alike k w w') (hk : k.Lawful) (hp : k.shows p = false) {payload : Bytes} {delay : Delay}
    {outcome : Outcome} (hd : w.deliver p payload delay = .ok (outcome, w₁)) : Alike k w₁ w' := by
  cases hpeer : w.peers[p]? with
  | none =>
    rw [deliver_eq_absent hpeer] at hd
    cases hd
    exact h
  | some peer =>
    rw [deliver_eq_map hpeer] at hd
    cases harrive : peer.arrive delay payload.length with
    | error f => rw [harrive] at hd; cases hd
    | ok arrived =>
      have hset := h.setPeer_left hp hpeer (Peer.origin_arrive harrive)
      rw [harrive] at hd
      cases hdrops : peer.drops with
      | true =>
        rw [hdrops] at hd
        cases hd
        exact hset
      | false =>
        rw [hdrops] at hd
        cases hd
        exact hset.modifyEngine_left peer.engine fun hxy => hk.receive_left (k.isSome_hidden hp) hxy payload

theorem update_left (h : Alike k w w') (hk : k.Lawful) (hp : k.shows p = false) (c : Instant) :
    Alike k (w.update p c).world w' ∧ ∀ s ∈ (w.update p c).submissions, k.shows s.task.peer = false := by
  cases hpeer : w.peers[p]? with
  | none =>
    rw [update_eq_absent hpeer]
    exact ⟨h, fun _ hs => (List.not_mem_nil hs).elim⟩
  | some peer =>
    cases hclosed : peer.isClosed with
    | true =>
      rw [update_eq_closed hpeer hclosed]
      exact ⟨h, fun _ hs => (List.not_mem_nil hs).elim⟩
    | false =>
      rw [update_eq_modify hpeer hclosed]
      refine ⟨h.modifyEngine_left peer.engine fun hxy => hk.update_left (k.isSome_hidden hp) hxy, fun s hs => ?_⟩
      rw [(Ticker.fireAt_of_mem_arm hs).2]
      exact hp

theorem update_right (h : Alike k w w') (hk : k.Lawful) (hp : k.shows p = false) (c : Instant) :
    Alike k w (w'.update p c).world ∧ ∀ s ∈ (w'.update p c).submissions, k.shows s.task.peer = false :=
  (h.flip.update_left hk.flip hp c).imp unflip id

theorem handler_left (h : Alike k w w') (hk : k.Lawful) {t : Task} (hp : k.shows t.peer = false) {c : Instant}
    {r : Reaction Task Outcome (World ε ρ)} (hr : World.handler t c w = .ok r) :
    Alike k r.world w' ∧ ∀ s ∈ r.submissions, k.shows s.task.peer = false := by
  cases t with
  | delivery p payload delay =>
    simp only [World.handler] at hr
    cases hd : w.deliver p payload delay with
    | error f => rw [hd] at hr; cases hr
    | ok x =>
      rw [hd] at hr
      cases hr
      exact ⟨h.deliver_left hk hp hd, fun _ hs => (List.not_mem_nil hs).elim⟩
  | tick p =>
    simp only [World.handler] at hr
    split at hr
    · cases hr
      exact h.update_left hk hp c
    · cases hr
      exact ⟨h, fun _ hs => (List.not_mem_nil hs).elim⟩

end World.Alike

end VirtualMesh

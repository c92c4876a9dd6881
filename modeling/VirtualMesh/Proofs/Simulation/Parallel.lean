import VirtualMesh.Proofs.Simulation.Kinship

/-!
# Simulations side by side

The same command, given to two simulations that are alike, leaves them alike, whatever it is: both give like
answers, or both are refused for one reason. What a script does to the two follows command by command.
-/

namespace VirtualMesh

variable {ε ε' ρ : Type} {k : Kinship ε ε'}

theorem Kinship.Steady.of_mem {α : Type} {f : α → List (Option Instant)} {l : List α} {instants : List (Option Instant)}
    (h : k.Steady (l.flatMap f ++ instants)) {x : α} (hx : x ∈ l) : k.Steady (f x) := fun hne hnone =>
  h hne (List.mem_append_left _ (List.mem_flatMap.2 ⟨x, hx, hnone⟩))

/-- The instants for which a command, or a task that runs during it, puts ticks into the queue. -/
def Simulation.rearmings [Consensus ε] (s : Simulation ε ρ) (c : Command) : List (Option Instant) :=
  (s.calls c).flatMap (fun x => s.world.rearming x.1 x.2) ++
    match c with
    | .time step => (World.dynamics.handed s step).flatMap World.rearmingOf
    | _ => []

theorem Simulation.rearming_update [Consensus ε] (s : Simulation ε ρ) (p q : Nat) :
    (s.update p).2.world.rearming q (s.update p).2.clock = s.world.rearming q s.clock := by
  rw [World.rearming, peers_update, World.rearming, update, Machine.absorb, Machine.clock_putAll, Machine.clock_withWorld]

theorem Kinship.Steady.of_mem_right {α : Type} {f : α → List (Option Instant)} {l : List α} {instants : List (Option Instant)}
    (h : k.Steady (instants ++ l.flatMap f)) {x : α} (hx : x ∈ l) : k.Steady (f x) := fun hne hnone =>
  h hne (List.mem_append_right _ (List.mem_flatMap.2 ⟨x, hx, hnone⟩))

/-- The same command, with the instants in it taken from the other time line. -/
inductive Command.Ahead (shift : Int) : Command → Command → Prop
  | time {step step' : ClockStep} (h : step.Ahead shift step') : Ahead shift (.time step) (.time step')
  | still {c : Command} (h : ∀ step, c ≠ .time step) : Ahead shift c c

theorem Command.Ahead.refl (c : Command) : Ahead 0 c c := by
  cases c with
  | time step => exact .time (.refl step)
  | _ => exact .still fun _ h => by cases h

/-- Equal answers; but an answer may tell about the hidden peer, or hold what an engine said. -/
inductive Answer.Alike (k : Kinship ε ε') : Answer → Answer → Prop
  | same {a : Answer} : Alike k a a
  | verdict {v v' : Verdict} (h : k.verdict v v') : Alike k (.verdict v) (.verdict v')
  | secret {a a' : Answer} (h : k.hidden.isSome = true) : Alike k a a'

theorem Answer.Alike.of_shows {p : Nat} {a a' : Answer} (h : k.shows p = true → a' = a) : Answer.Alike k a a' := by
  cases hp : k.shows p with
  | true => rw [h hp]; exact .same
  | false => exact .secret (k.isSome_hidden hp)

def Refusal.Excused (excused : Fault → Prop) : Refusal → Prop
  | .absent => False
  | .fault f => excused f

theorem Tally.require {α β : Type} {excused : Refusal → Prop} {P : α → β → Prop} {o : Option α} {o' : Option β}
    (h : Option.Rel P o o') : Tally excused P (Simulation.require o) (Simulation.require o') := by
  cases h with
  | some h => exact .ok h
  | none => exact .error

theorem Tally.attempt {α β : Type} {excused : Fault → Prop} {P : α → β → Prop} {x : Except Fault α} {y : Except Fault β}
    (h : Tally excused P x y) : Tally (Refusal.Excused excused) P (Simulation.attempt x) (Simulation.attempt y) := by
  cases h with
  | ok h => exact .ok h
  | error => exact .error
  | left h => exact .left h
  | right h => exact .right h

/-- What is there in both is the same. -/
theorem Tally.bind_require {α β γ : Type} {excused : Refusal → Prop} {P : β → γ → Prop} {o o' : Option α} (ho : o' = o)
    {f : α → Except Refusal β} {g : α → Except Refusal γ} (hfg : ∀ a, o = some a → Tally excused P (f a) (g a)) :
    Tally excused P (Simulation.require o >>= f) (Simulation.require o' >>= g) := by
  subst ho
  cases o' with
  | none => exact .error
  | some a => exact hfg a rfl

theorem Tally.mapM {κ α β γ : Type} {excused : κ → Prop} {P : β → γ → Prop} {f : α → Except κ β} {g : α → Except κ γ}
    (h : ∀ a, Tally excused P (f a) (g a)) (l : List α) : Tally excused (List.Forall₂ P) (l.mapM f) (l.mapM g) := by
  induction l with
  | nil => exact .ok .nil
  | cons a l ih =>
    simp only [List.mapM_cons]
    exact (h a).bind fun hb => ih.bind fun hbs => .ok (.cons hb hbs)

namespace World.Alike

variable {w : World ε ρ} {w' : World ε' ρ}

theorem close (h : Alike k w w') (p : Nat) :
    (k.shows p = true → (w'.close p).1 = (w.close p).1) ∧ Alike k (w.close p).2 (w'.close p).2 := by
  cases hpeer : w.peers[p]? with
  | none =>
    simp only [World.close, hpeer, h.peer_none hpeer]
    exact ⟨fun _ => trivial, h⟩
  | some peer =>
    obtain ⟨peer', hpeer', -, hsame⟩ := h.peer_some hpeer
    refine ⟨fun hp => ?_, ?_⟩
    · simp only [World.close, hpeer, hpeer', hsame hp]
    · rw [close_eq hpeer, close_eq hpeer']
      exact h.setPeer hpeer hpeer' rfl rfl fun hp => by rw [hsame hp]

theorem closeAll (h : Alike k w w') (peers : List Nat) :
    (k.hidden = none → (w'.closeAll peers).1 = (w.closeAll peers).1) ∧
      Alike k (w.closeAll peers).2 (w'.closeAll peers).2 := by
  induction peers generalizing w w' with
  | nil => exact ⟨fun _ => rfl, h⟩
  | cons p ps ih =>
    obtain ⟨hclosed, h₁⟩ := h.close p
    obtain ⟨hcount, h₂⟩ := ih h₁
    refine ⟨fun hnone => ?_, h₂⟩
    simp only [World.closeAll, hclosed (k.shows_of_hidden_eq_none hnone p), hcount hnone]

variable [NormalSource ρ]

theorem buildMesh (h : Alike k w w') (engines : List Nat) (config : Config) :
    Tally (fun _ => False) (Alike k) (w.buildMesh engines config) (w'.buildMesh engines config) := by
  unfold World.buildMesh
  split
  · exact .error
  · cases config.validate with
    | error e => exact .error
    | ok _ =>
      simp only [h.sources, h.length_peers]
      exact .ok { h.addPeers _ with sources := rfl, mesh := rfl }

end World.Alike

namespace Simulation

/-- Alike in worlds, queues and histories, with clocks as far apart as the time lines. -/
abbrev Alike (k : Kinship ε ε') (s : Simulation ε ρ) (s' : Simulation ε' ρ) : Prop :=
  Machine.Twin k.likeness (World.Alike k) s s'

/-- Alike in what is answered and in what comes after. -/
def Reply.Alike (k : Kinship ε ε') (r : Answer × Simulation ε ρ) (r' : Answer × Simulation ε' ρ) : Prop :=
  r.1.Alike k r'.1 ∧ Simulation.Alike k r.2 r'.2

namespace Alike

variable {s : Simulation ε ρ} {s' : Simulation ε' ρ} {w : World ε ρ} {w' : World ε' ρ}

theorem start {t t' : Instant} (ht : t.Ahead k.shift t') {engines : List ε} {engines' : List ε'}
    (h : List.Forall₂ k.engine engines engines') :
    Alike k (Simulation.start t engines : Simulation ε ρ) (Simulation.start t' engines') :=
  ⟨.startingAt .., ht, .ofEngines h⟩

theorem withWorld (h : Alike k s s') (hw : World.Alike k w w') : Alike k (s.withWorld w) (s'.withWorld w') :=
  ⟨h.alike.withWorld w w', h.clock, hw⟩

theorem handOut (h : Alike k s s') (p : Nat) :
    (s'.handOut p).1 = (s.handOut p).1 ∧ Alike k (s.handOut p).2 (s'.handOut p).2 := by
  refine ⟨congrArg List.length h.world.handles, h.withWorld { h.world with handles := ?_ }⟩
  exact congrArg (· ++ [some p]) h.world.handles

theorem addPeer (h : Alike k s s') (engine source : Nat) (config : Config) :
    (s'.addPeer engine source config).1 = (s.addPeer engine source config).1 ∧
      Alike k (s.addPeer engine source config).2 (s'.addPeer engine source config).2 := by
  rw [Simulation.addPeer, Simulation.addPeer, h.world.length_peers]
  exact (h.withWorld (h.world.addPeers [.fresh engine source config])).handOut _

theorem handOut_reply (h : Alike k s s') (p : Nat) :
    Reply.Alike k (.count (s.handOut p).1, (s.handOut p).2) (.count (s'.handOut p).1, (s'.handOut p).2) := by
  obtain ⟨hhandle, h₁⟩ := h.handOut p
  rw [hhandle]
  exact ⟨.same, h₁⟩

theorem addPeer_reply (h : Alike k s s') (engine source : Nat) (config : Config) :
    Reply.Alike k (.count (s.addPeer engine source config).1, (s.addPeer engine source config).2)
      (.count (s'.addPeer engine source config).1, (s'.addPeer engine source config).2) := by
  obtain ⟨hhandle, h₁⟩ := h.addPeer engine source config
  rw [hhandle]
  exact ⟨.same, h₁⟩

theorem bind_engine {α β : Type} {excused : Refusal → Prop} {P : α → β → Prop} (h : Alike k s s') (i : Nat)
    {f : ε → Except Refusal α} {g : ε' → Except Refusal β}
    (hfg : ∀ {x y}, s.world.engines[i]? = some x → k.engine x y → Tally excused P (f x) (g y)) :
    Tally excused P (require s.world.engines[i]? >>= f) (require s'.world.engines[i]? >>= g) := by
  cases hx : s.world.engines[i]? with
  | none => rw [h.world.engine_none hx]; exact .error
  | some x =>
    obtain ⟨y, hy, hxy⟩ := h.world.engine_some hx
    rw [hy]
    exact hfg hx hxy

section
variable [NormalSource ρ]

theorem addSource (h : Alike k s s') (seed : Option UInt64) :
    (s'.addSource seed).1 = (s.addSource seed).1 ∧ Alike k (s.addSource seed).2 (s'.addSource seed).2 := by
  refine ⟨congrArg List.length h.world.sources, h.withWorld { h.world with sources := ?_ }⟩
  exact congrArg (fun sources => sources ++ [NormalSource.make seed sources.length]) h.world.sources

/-- The same delay is drawn in both, for the hidden peer too. -/
theorem send (h : Alike k s s') (hinstants : k.shift ≠ 0 → k.excused .instantOverflow) (p : Nat)
    {payload payload' : Bytes} (hpayload : k.payload payload payload') :
    Tally k.excused (Alike k) (s.send p payload) (s'.send p payload') := by
  unfold Simulation.send
  cases hpeer : s.world.peers[p]? with
  | none =>
    simp only [h.world.peer_none hpeer]
    exact .ok h
  | some peer =>
    obtain ⟨peer', hpeer', horigin, hsame⟩ := h.world.peer_some hpeer
    obtain ⟨-, hsource, hconfig⟩ := Peer.origin_eq_iff.1 horigin
    have hlatency : peer'.latency = peer.latency := by rw [Peer.latency, hconfig, Peer.latency]
    have hrecorded : peer'.recorded = peer.recorded := by
      funext d
      rw [Peer.recorded, hconfig, Peer.recorded]
    simp only [hpeer', h.world.sources, hsource, hlatency, hrecorded]
    cases s.world.sources[peer.source]? with
    | none => exact .ok h
    | some source =>
      simp only [Instant.add?]
      generalize peer.latency.sample source = drawn
      have hw : World.Alike k
          ((s.world.setSource peer.source drawn.2).modifyPeer p fun q => { q with inFlight := q.inFlight + 1 })
          ((s'.world.setSource peer.source drawn.2).modifyPeer p fun q => { q with inFlight := q.inFlight + 1 }) := by
        have hset := h.world.setSource peer.source drawn.2
        have hfound : (s.world.setSource peer.source drawn.2).peers[p]? = some peer := hpeer
        have hfound' : (s'.world.setSource peer.source drawn.2).peers[p]? = some peer' := hpeer'
        rw [World.modifyPeer_eq_setPeer hfound, World.modifyPeer_eq_setPeer hfound']
        exact hset.setPeer hfound hfound' rfl rfl fun hp => by rw [hsame hp]
      rcases h.clock.shift?_cases (peer.recorded drawn.1).clamped.nanos with
        ⟨t, t', ht, ht', hahead⟩ | ⟨ht, ht'⟩ | ⟨hne, ht⟩ | ⟨hne, ht'⟩
      · rw [ht, ht']
        have hput : Submission.Alike k.likeness ⟨t, .delivery p payload (peer.recorded drawn.1)⟩
            ⟨t', .delivery p payload' (peer.recorded drawn.1)⟩ := ⟨hahead, .delivery hpayload⟩
        exact .ok ((h.withWorld hw).putAll (.cons hput .nil))
      · rw [ht, ht']
        exact .error
      · rw [ht]
        exact .left (hinstants hne)
      · rw [ht']
        exact .right (hinstants hne)

theorem sendAll (h : Alike k s s') (hinstants : k.shift ≠ 0 → k.excused .instantOverflow)
    {messages messages' : List (Nat × Bytes)} (hm : List.Forall₂ (Message.Alike k) messages messages') :
    Tally k.excused (Alike k) (s.sendAll messages) (s'.sendAll messages') := by
  induction hm generalizing s s' with
  | nil => exact .ok h
  | @cons m m' ms ms' hm _ ih =>
    obtain ⟨p, payload⟩ := m
    obtain ⟨p', payload'⟩ := m'
    obtain ⟨rfl, hpayload⟩ := hm
    simp only [Simulation.sendAll, List.foldlM_cons]
    exact (h.send hinstants _ hpayload).bind fun h₁ => ih h₁

end

variable [Consensus ε] [Consensus ε']

theorem update (h : Alike k s s') (hk : k.Lawful) (p : Nat) (hs : k.Steady (s.world.rearming p s.clock))
    (hs' : k.Steady (s'.world.rearming p s'.clock)) :
    (k.shows p = true → (s'.update p).1 = (s.update p).1) ∧ Alike k (s.update p).2 (s'.update p).2 := by
  simp only [Simulation.update, Machine.absorb]
  cases hp : k.shows p with
  | true =>
    have hupdate := h.world.update hk hp h.clock hs hs'
    exact ⟨fun _ => hupdate.outcome, (h.withWorld hupdate.world).putAll hupdate.submissions⟩
  | false =>
    obtain ⟨hworld, hhidden⟩ := h.world.update_left hk hp s.clock
    obtain ⟨hworld', hhidden'⟩ := hworld.update_right hk hp s'.clock
    refine ⟨fun h => absurd h Bool.false_ne_true, ?_, ?_, ?_⟩
    · exact ((h.alike.withWorld _ _).putAll_hidden_right hhidden').putAll_hidden hhidden
    · rw [Machine.clock_putAll, Machine.clock_putAll]
      exact h.clock
    · rw [Machine.world_putAll, Machine.world_putAll]
      exact hworld'

theorem updateAll (h : Alike k s s') (hk : k.Lawful) {peers : List Nat}
    (hs : ∀ p ∈ peers, k.Steady (s.world.rearming p s.clock))
    (hs' : ∀ p ∈ peers, k.Steady (s'.world.rearming p s'.clock)) : Alike k (s.updateAll peers) (s'.updateAll peers) := by
  induction peers generalizing s s' with
  | nil => exact h
  | cons p ps ih =>
    obtain ⟨hp, hps⟩ := List.forall_mem_cons.1 hs
    obtain ⟨hp', hps'⟩ := List.forall_mem_cons.1 hs'
    rw [Simulation.updateAll, Simulation.updateAll, List.foldl_cons, List.foldl_cons]
    refine ih (h.update hk p hp hp').2 (fun q hq => ?_) fun q hq => ?_
    · rw [rearming_update]
      exact hps q hq
    · rw [rearming_update]
      exact hps' q hq

theorem attachTo (h : Alike k s s') (hk : k.Lawful) (engine : Nat) (peers : List Nat) :
    Option.Rel (Alike k) (s.attachTo engine peers) (s'.attachTo engine peers) := by
  obtain ⟨hlinks, hlink⟩ := h.world.link engine peers
  cases hx : s.world.engines[engine]? with
  | none =>
    simp only [Simulation.attachTo, hx, h.world.engine_none hx]
    exact .none
  | some x =>
    obtain ⟨y, hy, hxy⟩ := h.world.engine_some hx
    have hattach := hk.attach hxy (s.world.link engine peers).1
    simp only [Simulation.attachTo, hx, hy, hlinks, Option.bind_eq_bind, Option.bind_some]
    generalize Consensus.attach? x (s.world.link engine peers).1 = o at hattach
    generalize Consensus.attach? y (s.world.link engine peers).1 = o' at hattach
    cases hattach with
    | none => exact .none
    | some hxy' => exact .some (h.withWorld (hlink.setEngine hx hxy'))

theorem wire (h : Alike k s s') (hk : k.Lawful) (engine : Nat) (rows : List (List (Nat × Nat))) :
    Alike k (s.wire engine rows) (s'.wire engine rows) := by
  induction rows generalizing s s' engine with
  | nil => exact h
  | cons row rows ih =>
    rw [Simulation.wire, Simulation.wire]
    refine ih ?_ (engine + 1)
    have hattach := h.attachTo hk engine (row.map Prod.snd)
    generalize s.attachTo engine (row.map Prod.snd) = o at hattach
    generalize s'.attachTo engine (row.map Prod.snd) = o' at hattach
    cases hattach with
    | none => exact h
    | some h₁ => exact h₁

variable [NormalSource ρ]

theorem propose (h : Alike k s s') (hk : k.Lawful) (engine : Nat) (state : State) :
    Tally k.excused (Alike k) (s.propose engine state) (s'.propose engine state) := by
  cases hx : s.world.engines[engine]? with
  | none =>
    simp only [Simulation.propose, hx, h.world.engine_none hx]
    exact .ok h
  | some x =>
    obtain ⟨y, hy, hxy⟩ := h.world.engine_some hx
    simp only [Simulation.propose, hx, hy, h.world.hasLink_eq]
    refine (hk.propose hxy s.world.hasLink state).bind fun {r r'} hr => ?_
    refine (h.withWorld (h.world.setEngine hx hr.1)).sendAll hk.instants (List.rel_filterMap (fun o o' ho => ?_) hr.2)
    rw [ho.1]
    have hlink : World.peerOfLink (s'.world.setEngine engine r'.1) o.link =
        World.peerOfLink (s.world.setEngine engine r.1) o.link := h.world.peerOfLink_eq o.link
    simp only [Machine.world_withWorld, hlink]
    cases World.peerOfLink (s.world.setEngine engine r.1) o.link with
    | none => exact .none
    | some p => exact .some ⟨rfl, ho.2⟩

/-! ## Commands -/

omit [Consensus ε] [Consensus ε'] in
theorem newPeer (h : Alike k s s') (engine : Nat) (config : Config) (shared : Option Nat) :
    Tally (Refusal.Excused k.excused) (Reply.Alike k) (s.newPeer engine config shared)
      (s'.newPeer engine config shared) := by
  unfold Simulation.newPeer
  rw [h.world.shared]
  refine h.bind_engine engine fun _ _ => ?_
  extract_lets make make'
  have hmake : ∀ source, Tally (Refusal.Excused k.excused) (Reply.Alike k) (make source) (make' source) := by
    intro source
    unfold make make'
    cases config.validate with
    | error e => exact .ok ⟨.same, h⟩
    | ok _ =>
      cases source with
      | some source => exact .ok (h.addPeer_reply engine source config)
      | none =>
        obtain ⟨hsource, h₁⟩ := h.addSource config.seed
        simp only [hsource]
        exact .ok (h₁.addPeer_reply engine (s.addSource config.seed).1 config)
  cases shared with
  | none => exact hmake none
  | some n =>
    refine Tally.bind (.refl (fun _ => rfl) _) fun {source _} hsource => ?_
    subst hsource
    exact hmake source

/-- Alike simulations stay alike under every command but those that let time pass; an engine may be told to reject only
if the other can be told as well. -/
theorem apply_still (h : Alike k s s') (hk : k.Lawful) {c : Command} (htime : ∀ step, c ≠ .time step)
    (hreject : ∀ i error, c = .reject i error → ∀ {x y}, k.engine x y →
      Option.Rel k.engine (Consensus.reject? x error) (Consensus.reject? y error))
    (hs : k.Steady (s.rearmings c)) (hs' : k.Steady (s'.rearmings c)) :
    Tally (Refusal.Excused k.excused) (Reply.Alike k) (s.apply c) (s'.apply c) := by
  cases c with
  | time step => exact absurd rfl (htime step)
  | newSource seed =>
    obtain ⟨hsource, h₁⟩ := h.addSource (some seed)
    simp only [apply, hsource, h₁.world.shared]
    exact .ok ⟨.same, h₁.withWorld { h₁.world with shared := rfl }⟩
  | newPeer engine config shared => exact h.newPeer engine config shared
  | clonePeer handle =>
    exact Tally.bind_require (h.world.peerOfHandle_eq handle) fun p _ => .ok (h.handOut_reply p)
  | dropPeer handle =>
    simp only [apply, h.world.handles]
    refine Tally.bind_require (h.world.peerOfHandle_eq handle) fun _ _ => ?_
    exact .ok ⟨.same, h.withWorld { h.world with handles := rfl }⟩
  | send handle payload =>
    refine Tally.bind_require (h.world.peerOfHandle_eq handle) fun p _ => ?_
    exact (Tally.attempt (h.send hk.instants p (hk.payload_refl payload))).bind fun h₁ => .ok ⟨.same, h₁⟩
  | update handle =>
    refine Tally.bind_require (h.world.peerOfHandle_eq handle) fun p hp => ?_
    have hp' := (h.world.peerOfHandle_eq handle).trans hp
    have hcall : (p, s.clock) ∈ s.calls (.update handle) := by simp [calls, hp]
    have hcall' : (p, s'.clock) ∈ s'.calls (.update handle) := by simp [calls, hp']
    obtain ⟨houtcome, h₁⟩ := h.update hk p (hs.of_mem hcall) (hs'.of_mem hcall')
    exact .ok ⟨.of_shows fun hp => congrArg Answer.ticked (houtcome hp), h₁⟩
  | close handle =>
    refine Tally.bind_require (h.world.peerOfHandle_eq handle) fun p _ => ?_
    obtain ⟨hclosed, hw⟩ := h.world.close p
    exact .ok ⟨.of_shows fun hp => congrArg Answer.closed (hclosed hp), h.withWorld hw⟩
  | propose handle state =>
    refine Tally.bind_require (h.world.peerOfHandle_eq handle) fun p _ => ?_
    refine (Tally.require (h.world.peer_rel p)).bind fun {peer peer'} horigin => ?_
    rw [(Peer.origin_eq_iff.1 horigin).1]
    exact (Tally.attempt (h.propose hk peer.engine state)).bind fun h₁ => .ok ⟨.same, h₁⟩
  | receiveAt engine message =>
    refine h.bind_engine engine fun {x y} hx hxy => ?_
    obtain ⟨hengine, hverdict⟩ := hk.receive hxy (hk.payload_refl message)
    exact .ok ⟨.verdict hverdict, h.withWorld (h.world.setEngine hx hengine)⟩
  | updateAt engine =>
    refine h.bind_engine engine fun {x y} hx hxy => ?_
    obtain ⟨hengine, hverdict⟩ := hk.update hxy
    exact .ok ⟨.verdict hverdict, h.withWorld (h.world.setEngine hx hengine)⟩
  | proposeAt engine state =>
    refine h.bind_engine engine fun _ _ => ?_
    exact (Tally.attempt (h.propose hk engine state)).bind fun h₁ => .ok ⟨.same, h₁⟩
  | reject engine error =>
    refine h.bind_engine engine fun hx hxy => ?_
    refine (Tally.require (hreject engine error rfl hxy)).bind fun hxy' => ?_
    exact .ok ⟨.same, h.withWorld (h.world.setEngine hx hxy')⟩
  | attach engine handles =>
    simp only [apply, h.world.peerOfHandle_eq]
    refine Tally.bind (.refl (fun _ => rfl) _) fun {peers _} hpeers => ?_
    subst hpeers
    exact (Tally.require (h.attachTo hk engine peers)).bind fun h₁ => .ok ⟨.same, h₁⟩
  | unlink engine count =>
    simp only [apply, h.world.links]
    refine h.bind_engine engine fun _ _ => ?_
    exact .ok ⟨.same, h.withWorld { h.world with links := rfl }⟩
  | buildMesh config engines =>
    simp only [apply, h.world.length_engines]
    refine (Tally.mapM (fun i => .require (optionRel_getElem? h.world.engines i)) _).bind fun _ => ?_
    have hbuild := h.world.buildMesh (engines.getD (List.range s.world.engines.length)) config
    generalize s.world.buildMesh (engines.getD (List.range s.world.engines.length)) config = x at hbuild
    generalize s'.world.buildMesh (engines.getD (List.range s.world.engines.length)) config = y at hbuild
    cases hbuild with
    | ok hw => exact .ok ⟨.same, h.withWorld hw⟩
    | error => exact .ok ⟨.same, h⟩
    | left hf => exact hf.elim
    | right hf => exact hf.elim
  | holdPeer place target =>
    refine Tally.bind_require h.world.mesh fun m _ => ?_
    cases m.peer place target with
    | error e => exact .ok ⟨.same, h⟩
    | ok p => exact .ok (h.handOut_reply p)
  | broadcast place payload =>
    refine Tally.bind_require h.world.mesh fun m _ => ?_
    cases m.peersOf place with
    | error e => exact .ok ⟨.same, h⟩
    | ok row =>
      refine (Tally.attempt (h.sendAll hk.instants ?_)).bind fun h₁ => .ok ⟨.same, h₁⟩
      exact List.forall₂_same.2 fun x hx => ⟨rfl, hk.payload_refl _⟩
  | wireMesh => exact Tally.bind_require h.world.mesh fun m _ => .ok ⟨.same, h.wire hk 0 m.rows⟩
  | startMesh =>
    refine Tally.bind_require h.world.mesh fun m hm => ?_
    have hm' := h.world.mesh.trans hm
    have hcall : ∀ p ∈ m.peers, (p, s.clock) ∈ s.calls .startMesh := by simp [calls, hm]
    have hcall' : ∀ p ∈ m.peers, (p, s'.clock) ∈ s'.calls .startMesh := by simp [calls, hm']
    exact .ok ⟨.same, h.updateAll hk (fun p hp => hs.of_mem (hcall p hp)) fun p hp => hs'.of_mem (hcall' p hp)⟩
  | closeMesh =>
    refine Tally.bind_require h.world.mesh fun m _ => ?_
    obtain ⟨hcount, hw⟩ := h.world.closeAll m.peers
    refine .ok ⟨?_, h.withWorld hw⟩
    cases hhidden : k.hidden with
    | none => exact congrArg Answer.count (hcount hhidden) ▸ .same
    | some p => exact .secret (by rw [hhidden]; rfl)
  | dropMesh =>
    exact Tally.bind_require h.world.mesh fun _ _ => .ok ⟨.same, h.withWorld { h.world with mesh := rfl }⟩

/-! ## Time -/

variable (hhidden : k.hidden = none)
include hhidden

omit [NormalSource ρ] [Consensus ε] [Consensus ε'] in
theorem share_eq (hw : World.Alike k w w') {deadline deadline' t t' : Instant} (hd : deadline.Ahead k.shift deadline')
    (ht : t.Ahead k.shift t') {task task' : Task} (htask : task.Alike k task') :
    w'.share deadline' t' task' = w.share deadline t task := by
  cases htask with
  | delivery => rfl
  | @tick p =>
    simp only [World.share, hw.peers p (k.shows_of_hidden_eq_none hhidden p)]
    have hdiff : deadline'.nanos - t'.nanos = deadline.nanos - t.nanos := hd.since_eq ht
    rw [hdiff]

omit [NormalSource ρ] [Consensus ε] [Consensus ε'] in
theorem allowance_eq (h : Alike k s s') {deadline deadline' : Instant} (hd : deadline.Ahead k.shift deadline') :
    World.allowance deadline' s' = World.allowance deadline s := by
  have hqueue := h.queue (k.total_of_hidden_eq_none hhidden)
  unfold World.allowance
  generalize s.queue = q at hqueue
  generalize s'.queue = q' at hqueue
  induction hqueue with
  | nil => rfl
  | @cons e e' _ _ he _ ih =>
    have hdue : decide (e'.fireAt ≤ deadline') = decide (e.fireAt ≤ deadline) :=
      decide_eq_decide.2 (he.fireAt.le_iff hd)
    rw [List.filter_cons, List.filter_cons, hdue]
    split
    · rw [List.map_cons, List.map_cons, List.foldr_cons, List.foldr_cons, ih,
        share_eq hhidden h.world hd he.fireAt he.task]
    · exact ih

/-- Without a hidden peer alike simulations stay alike also while time passes. -/
theorem apply_time (h : Alike k s s') (hk : k.Lawful) {step step' : ClockStep} (hstep : step.Ahead k.shift step')
    (hs : k.Steady (s.rearmings (.time step))) (hs' : k.Steady (s'.rearmings (.time step'))) :
    Tally (Refusal.Excused k.excused) (Reply.Alike k) (s.apply (.time step)) (s'.apply (.time step')) := by
  have htotal := k.total_of_hidden_eq_none hhidden
  have hagree : Handler.Agree k.likeness (World.Alike (ρ := ρ) k) k.excused (fun x => k.Steady (World.rearmingOf x))
      (fun x => k.Steady (World.rearmingOf x)) World.handler World.handler :=
    fun _ _ _ _ _ _ ht hc hw hs hs' => hw.handler hk ht (htotal _) hc hs hs'
  have hrun := Dynamics.twin_step World.dynamics World.dynamics htotal hagree
    (fun ht hm => allowance_eq hhidden hm ht) hk.instants h hstep (fun x hx => ?_) (fun x hx => ?_)
  · exact (Tally.attempt hrun).bind fun hr => .ok ⟨by rw [hr.1]; exact .same, hr.2⟩
  · exact hs.of_mem_right hx
  · exact hs'.of_mem_right hx

theorem apply (h : Alike k s s') (hk : k.Lawful) {c c' : Command} (hc : c.Ahead k.shift c')
    (hreject : ∀ i error, c = .reject i error → ∀ {x y}, k.engine x y →
      Option.Rel k.engine (Consensus.reject? x error) (Consensus.reject? y error))
    (hs : k.Steady (s.rearmings c)) (hs' : k.Steady (s'.rearmings c')) :
    Tally (Refusal.Excused k.excused) (Reply.Alike k) (s.apply c) (s'.apply c') := by
  cases hc with
  | time hstep => exact apply_time hhidden h hk hstep hs hs'
  | still htime => exact h.apply_still hk htime hreject hs hs'

end Alike

theorem run_cons [NormalSource ρ] [Consensus ε] (s : Simulation ε ρ) (c : Command) (cs : List Command) :
    s.run (c :: cs) = s.apply c >>= fun r => (r.2.run cs).map fun x => (r.1 :: x.1, x.2) := by
  rw [run]
  cases s.apply c <;> rfl

end Simulation

end VirtualMesh

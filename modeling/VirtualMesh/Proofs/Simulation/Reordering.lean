import VirtualMesh.Proofs.Simulation.Draining
import VirtualMesh.Proofs.Simulation.Order
import VirtualMesh.Proofs.Simulation.Report

/-!
# Deliveries in any order

A scheduler need not run the tasks in the order in which they are due. In whatever order it delivers messages
that are under way, each once, the peers end with the same statistics and the recording engines with the same
messages up to their order. Only the sum of the delays, which stops at the ends of its range, could tell one order
from another.
-/

namespace VirtualMesh

namespace Peer

/-- What the engine of the peer gets of these messages. -/
def taken (peer : Peer) (l : List Message) : List Message := if peer.drops then [] else l

/-- The peer once these messages have arrived. -/
structure Arrived (peer : Peer) (l : List Message) (new : Peer) : Prop where
  kept : new = { peer with stats := new.stats, inFlight := peer.inFlight - l.length }
  messages : new.stats.messages.toNat = peer.stats.messages.toNat + (peer.taken l).length
  bytes : new.stats.bytes.toNat = peer.stats.bytes.toNat + ((peer.taken l).map fun m => m.payload.length).sum
  dropped : new.stats.dropped.toNat = peer.stats.dropped.toNat + (l.length - (peer.taken l).length)
  latencies : new.stats.latencies = ((peer.taken l).map Message.delay).foldl LatencyStats.record peer.stats.latencies

variable {peer mid new new' : Peer} {m : Message} {l l' : List Message}

theorem taken_append (peer : Peer) (l l' : List Message) : peer.taken (l ++ l') = peer.taken l ++ peer.taken l' := by
  unfold taken
  split <;> rfl

theorem length_taken_le (peer : Peer) (l : List Message) : (peer.taken l).length ≤ l.length := by
  unfold taken
  split
  · exact Nat.zero_le _
  · exact Nat.le_refl _

theorem taken_perm (h : l.Perm l') : (peer.taken l).Perm (peer.taken l') := by
  unfold taken
  split
  · exact .refl _
  · exact h

namespace Arrived

theorem nil (peer : Peer) : peer.Arrived [] peer := by
  have hnone : peer.taken [] = [] := ite_self _
  constructor <;> simp [hnone]

theorem singleton (h : peer.arrive m.delay m.payload.length = .ok new) : peer.Arrived [m] new := by
  obtain ⟨stats, ⟨hd, hstats⟩ | ⟨hd, hstats⟩, rfl⟩ := arrive_eq_ok.1 h
  · obtain ⟨hdropped, hmessages, hbytes, hlatencies⟩ := PeerStats.recordDrop_eq_ok.1 hstats
    constructor <;> simp [taken, hd, hdropped, hmessages, hbytes, hlatencies]
  · obtain ⟨hmessages, hbytes, hdropped, hlatencies⟩ := PeerStats.recordDelivery_eq_ok.1 hstats
    constructor <;> simp [taken, hd, hdropped, hmessages, hbytes, hlatencies]

theorem trans (h : peer.Arrived l mid) (h' : mid.Arrived l' new) : peer.Arrived (l ++ l') new := by
  have hdrops : mid.drops = peer.drops := by rw [h.kept]; rfl
  have htaken : mid.taken l' = peer.taken l' := by rw [taken, hdrops, ← taken]
  have hle := peer.length_taken_le l
  have hle' := peer.length_taken_le l'
  constructor
  case kept => rw [h'.kept, List.length_append, ← Nat.sub_sub, h.kept]
  case messages => rw [h'.messages, h.messages, htaken, taken_append, List.length_append, Nat.add_assoc]
  case bytes => rw [h'.bytes, h.bytes, htaken, taken_append, List.map_append, List.sum_append, Nat.add_assoc]
  case dropped =>
    rw [h'.dropped, h.dropped, htaken, taken_append, List.length_append, List.length_append]
    omega
  case latencies => rw [h'.latencies, h.latencies, htaken, taken_append, List.map_append, List.foldl_append]

theorem unique (h : peer.Arrived l new) (h' : peer.Arrived l' new') (hperm : l.Perm l')
    (hsum : Delay.Summable peer.stats.latencies.total (l.map Message.delay)) : new = new' := by
  have htaken : (peer.taken l).Perm (peer.taken l') := taken_perm hperm
  have hsum' : Delay.Summable peer.stats.latencies.total ((peer.taken l).map Message.delay) := by
    refine hsum.sublist (List.Sublist.map _ ?_)
    unfold taken
    split
    · exact List.nil_sublist l
    · exact .refl l
  -- counts are sums, and of the latencies only the total could depend on the order
  have hstats : new.stats = new'.stats := by
    refine PeerStats.ext_toNat ?_ ?_ ?_ ?_
    · rw [h.messages, h'.messages, htaken.length_eq]
    · rw [h.bytes, h'.bytes, (htaken.map fun m => m.payload.length).sum_eq]
    · rw [h.dropped, h'.dropped, hperm.length_eq, htaken.length_eq]
    · rw [h.latencies, h'.latencies, LatencyStats.foldl_record_perm hsum' (htaken.map Message.delay)]
  rw [h.kept, h'.kept, hstats, hperm.length_eq]

end Arrived

end Peer

namespace World

section
variable {ε ρ : Type}

/-- Whether the engine gets what is sent to a peer. -/
def reaches (w : World ε ρ) (engine p : Nat) : Bool :=
  (w.peers[p]?).any fun peer => peer.engine = engine && !peer.drops

/-- Delivers messages one after another, each at some time. -/
def perform [Consensus ε] (w : World ε ρ) (xs : List (Instant × Message)) : Except Fault (World ε ρ) :=
  xs.foldlM (fun w x => (handler x.2.task x.1 w).map Reaction.world) w

theorem reaches_eq {w : World ε ρ} {p : Nat} {peer : Peer} (hp : w.peers[p]? = some peer) (i : Nat) :
    w.reaches i p = (decide (peer.engine = i) && !peer.drops) := by
  rw [reaches, hp]
  rfl

end

variable {ρ : Type} {w mid w' : World Engine ρ} {m : Message} {l : List Message}

/-- The world once these messages have been delivered. -/
structure Delivered (w : World Engine ρ) (l : List Message) (w' : World Engine ρ) : Prop where
  length : w'.peers.length = w.peers.length
  peers : ∀ (p : Nat) (peer : Peer), w.peers[p]? = some peer →
    ∃ new, w'.peers[p]? = some new ∧ peer.Arrived (l.filter fun m => m.peer = p) new
  payloads : ∀ (i : Nat) (e : RecordingEngine), w.engines[i]? = some (.recording e) →
    ∃ e', w'.engines[i]? = some (.recording e') ∧
      e'.payloads = e.payloads ++ (l.filter fun m => w.reaches i m.peer).map Message.payload

namespace Delivered

theorem nil (w : World Engine ρ) : w.Delivered [] w where
  length := rfl
  peers _ peer hp := ⟨peer, hp, .nil peer⟩
  payloads _ e he := ⟨e, he, (List.append_nil _).symm⟩

theorem reaches_eq (h : w.Delivered l w') (i p : Nat) : w'.reaches i p = w.reaches i p := by
  cases hp : w.peers[p]? with
  | none =>
    have hp' : w'.peers[p]? = none := by
      rw [List.getElem?_eq_none_iff] at hp ⊢
      rwa [h.length]
    rw [reaches, reaches, hp, hp']
  | some peer =>
    obtain ⟨new, hnew, harrived⟩ := h.peers p peer hp
    rw [World.reaches_eq hp, World.reaches_eq hnew, harrived.kept]
    rfl

theorem trans {l' : List Message} (h : w.Delivered l mid) (h' : mid.Delivered l' w') : w.Delivered (l ++ l') w' where
  length := h'.length.trans h.length
  peers p peer hp := by
    obtain ⟨old, hold, harrived⟩ := h.peers p peer hp
    obtain ⟨new, hnew, harrived'⟩ := h'.peers p old hold
    rw [List.filter_append]
    exact ⟨new, hnew, harrived.trans harrived'⟩
  payloads i e he := by
    obtain ⟨f, hf, hpayloads⟩ := h.payloads i e he
    obtain ⟨e', he', hpayloads'⟩ := h'.payloads i f hf
    refine ⟨e', he', ?_⟩
    rw [hpayloads', hpayloads, List.append_assoc, List.filter_append, List.map_append]
    simp only [h.reaches_eq]

theorem singleton {peer new : Peer} {x : Engine} (hp : w.peers[m.peer]? = some peer)
    (hx : w.engines[peer.engine]? = some x) (hnew : peer.arrive m.delay m.payload.length = .ok new) :
    w.Delivered [m] (if peer.drops then w.setPeer m.peer new
      else (w.setPeer m.peer new).setEngine peer.engine (Consensus.receive x m.payload).1) := by
  have hlt := (List.getElem?_eq_some_iff.1 hp).1
  constructor
  case length => split <;> exact List.length_set
  case peers =>
    intro p old hold
    have hpeers : (if peer.drops then w.setPeer m.peer new
        else (w.setPeer m.peer new).setEngine peer.engine (Consensus.receive x m.payload).1).peers =
          w.peers.set m.peer new := by
      split <;> rfl
    rw [hpeers]
    by_cases hpm : m.peer = p
    · subst hpm
      obtain rfl := Option.some.inj (hp.symm.trans hold)
      rw [List.filter_cons_of_pos (by simp), List.filter_nil]
      exact ⟨new, List.getElem?_set_self hlt, .singleton hnew⟩
    · rw [List.filter_cons_of_neg (by simpa using hpm), List.filter_nil]
      exact ⟨old, (List.getElem?_set_ne hpm).trans hold, .nil old⟩
  case payloads =>
    intro i e he
    simp only [List.filter_cons, List.filter_nil, World.reaches_eq hp]
    cases hd : peer.drops with
    | true => exact ⟨e, he, by simp⟩
    | false =>
      by_cases hi : peer.engine = i
      · subst hi
        obtain rfl := Option.some.inj (hx.symm.trans he)
        have hlt := (List.getElem?_eq_some_iff.1 hx).1
        exact ⟨{ e with received := m.payload :: e.received }, List.getElem?_set_self hlt,
          by simp [RecordingEngine.payloads]⟩
      · exact ⟨e, (List.getElem?_set_ne hi).trans he, by simp [hi]⟩

variable {l' : List Message} {w'' : World Engine ρ}

theorem peers_eq (h : w.Delivered l w') (h' : w.Delivered l' w'') (hperm : l.Perm l')
    (hsum : ∀ (p : Nat) (peer : Peer), w.peers[p]? = some peer →
      Delay.Summable peer.stats.latencies.total ((l.filter fun m => m.peer = p).map Message.delay)) :
    w'.peers = w''.peers := by
  refine List.ext_getElem? fun p => ?_
  cases hp : w.peers[p]? with
  | none =>
    rw [List.getElem?_eq_none_iff] at hp
    rw [List.getElem?_eq_none (h.length ▸ hp), List.getElem?_eq_none (h'.length ▸ hp)]
  | some peer =>
    obtain ⟨new, hnew, harrived⟩ := h.peers p peer hp
    obtain ⟨new', hnew', harrived'⟩ := h'.peers p peer hp
    rw [hnew, hnew', harrived.unique harrived' (hperm.filter _) (hsum p peer hp)]

theorem payloads_perm (h : w.Delivered l w') (h' : w.Delivered l' w'') (hperm : l.Perm l') {i : Nat}
    {e : RecordingEngine} (he : w.engines[i]? = some (.recording e)) : ∃ e' e'',
      w'.engines[i]? = some (.recording e') ∧ w''.engines[i]? = some (.recording e'') ∧
        e'.payloads.Perm e''.payloads := by
  obtain ⟨e', he', hpayloads⟩ := h.payloads i e he
  obtain ⟨e'', he'', hpayloads'⟩ := h'.payloads i e he
  refine ⟨e', e'', he', he'', ?_⟩
  rw [hpayloads, hpayloads']
  exact ((hperm.filter _).map _).append_left _

end Delivered

theorem exists_delivered (hw : w.WellFormed) (hm : m.peer < w.peers.length) (now : Instant) (l : List Message) :
    (∃ mid, (handler m.task now w).map Reaction.world = .ok mid ∧ mid.WellFormed ∧ w.Delivered [m] mid ∧
        (w.Takes (m :: l) ↔ mid.Takes l)) ∨
      ¬ w.Takes (m :: l) ∧ (handler m.task now w).map Reaction.world = .error .countOverflow := by
  rcases hw.handler_cases hm now l with ⟨peer, x, new, hp, hx, hnew, hok⟩ | ⟨hover, herror⟩
  · have htakes := takes_setPeer (l := l) hp hnew
    have hset : (w.setPeer m.peer new).WellFormed := by
      obtain ⟨stats, -, rfl⟩ := Peer.arrive_eq_ok.1 hnew
      exact hw.setPeer hp rfl
    refine .inl ⟨_, ?_, ?_, .singleton hp hx hnew, htakes.trans ?_⟩
    · rw [hok]
      cases peer.drops <;> rfl
    · split
      · exact hset
      · exact hset.setEngine _ _
    · split <;> rfl
  · exact .inr ⟨hover, by rw [herror]; rfl⟩

/-- Whether messages can be delivered does not depend on the order, for the counts have room for all of them or
they have not. -/
theorem perform_cases (hw : w.WellFormed) {xs : List (Instant × Message)} (hxs : ∀ x ∈ xs, x.2.peer < w.peers.length) :
    w.Takes (xs.map Prod.snd) ∧ (∃ w', w.perform xs = .ok w' ∧ w.Delivered (xs.map Prod.snd) w') ∨
      ¬ w.Takes (xs.map Prod.snd) ∧ w.perform xs = .error .countOverflow := by
  induction xs generalizing w with
  | nil => exact .inl ⟨w.takes_nil, w, rfl, .nil w⟩
  | cons x xs ih =>
    obtain ⟨now, m⟩ := x
    obtain ⟨hm, hxs⟩ := List.forall_mem_cons.1 hxs
    rw [perform, List.foldlM_cons, List.map_cons]
    -- there is room for all messages if there is for the others once the first has arrived
    rcases exists_delivered hw hm now (xs.map Prod.snd) with ⟨mid, hok, hmid, hone, htakes⟩ | ⟨hover, herror⟩
    · rw [hok, htakes]
      refine (ih hmid fun x hx => hone.length ▸ hxs x hx).imp ?_ id
      rintro ⟨htakes, w', hw', hrest⟩
      exact ⟨htakes, w', hw', hone.trans hrest⟩
    · rw [herror]
      exact .inr ⟨hover, rfl⟩

end World

namespace Simulation

variable {ε ρ : Type} [NormalSource ρ]

/-! ## The order of the simulation -/

section
variable {ε : Type} [Consensus ε] {s s' : Simulation ε ρ} {e : Entry Task} {m : Message}

theorem Step.perform (hs : s.Sound) (hm : Message.of? e = some m) (hstep : Step s (.fire e) s') :
    s.queue = e :: s'.queue ∧ s.world.perform [(e.fireAt, m)] = .ok s'.world := by
  obtain rfl := Message.of?_eq_some.1 hm
  cases hstep with
  | @deliver _ rest p payload delay peer stats x hq ht hp hd hstats hx =>
    cases ht
    refine ⟨hq, ?_⟩
    have hnew : peer.arrive m.delay m.payload.length = .ok _ := Peer.arrive_eq_ok.2 ⟨stats, .inr ⟨hd, hstats⟩, rfl⟩
    rw [World.perform, List.foldlM_cons, World.handler_delivery hp hx, hnew, hd]
    rfl
  | @drop _ rest p payload delay peer stats hq ht hp hd hstats =>
    cases ht
    refine ⟨hq, ?_⟩
    obtain ⟨_, x, hp', hx⟩ := hs.world.exists_peer (List.getElem?_eq_some_iff.1 hp).1
    obtain rfl := Option.some.inj (hp.symm.trans hp')
    have hnew : peer.arrive m.delay m.payload.length = .ok _ := Peer.arrive_eq_ok.2 ⟨stats, .inl ⟨hd, hstats⟩, rfl⟩
    rw [World.perform, List.foldlM_cons, World.handler_delivery hp hx, hnew, hd]
    rfl
  | tick hq ht => cases ht
  | idle hq ht => cases ht

/-- What is true while the simulation `s₀`, without ticks in its queue, runs its tasks. -/
structure Performing (s₀ : Simulation ε ρ) (n : Nat) (s : Simulation ε ρ) : Prop where
  performed : ∃ xs, xs.length = n ∧ s₀.world.perform xs = .ok s.world ∧
    (xs.map Prod.snd ++ s.underway).Perm s₀.underway
  messages : ∀ e ∈ s.queue, (Message.of? e).isSome = true

theorem Step.performing {s₀ : Simulation ε ρ} {n : Nat} (hs : s.Sound) (h : s₀.Performing n s)
    (hstep : Step s (.fire e) s') : s₀.Performing (n + 1) s' ∧ s'.queue.length < s.queue.length := by
  obtain ⟨⟨xs, rfl, hperform, hperm⟩, hmessages⟩ := h
  obtain ⟨m, hm⟩ := Option.isSome_iff_exists.1 (hmessages e hstep.mem_queue)
  obtain ⟨hq, hone⟩ := hstep.perform hs hm
  have hfire := hstep.underway_of_fire
  rw [hm] at hfire
  refine ⟨⟨⟨xs ++ [(e.fireAt, m)], List.length_append, ?_, ?_⟩, fun f hf => hmessages f ?_⟩, ?_⟩
  · rw [World.perform, List.foldlM_append, ← World.perform, hperform]
    exact hone
  · rw [List.map_append, List.append_assoc]
    exact (hfire.symm.append_left _).trans hperm
  · rw [hq]
    exact List.mem_cons_of_mem _ hf
  · rw [hq]
    exact Nat.lt_succ_self _

/-- Without ticks in the queue, the simulation delivers all messages in one of these orders when it runs all tasks. -/
theorem runAll_performs (hs : s.Sound) (hmessages : ∀ e ∈ s.queue, (Message.of? e).isSome = true) {limit : Nat}
    (hlimit : s.queue.length ≤ limit) :
    (∃ s' xs, s.apply (.time (.runAll limit)) = .ok (.count s.underway.length, s') ∧ s'.queue = [] ∧
        (xs.map Prod.snd).Perm s.underway ∧ s.world.perform xs = .ok s'.world) ∨
      ¬ s.Fits ∧ s.apply (.time (.runAll limit)) = .error (.fault .countOverflow) := by
  rcases apply_runAll_cases (P := s.Performing) (μ := fun t => t.queue.length) List.length_eq_zero_iff.1
    (fun ht h hstep => hstep.performing ht h) hs ⟨⟨[], rfl, rfl, .refl _⟩, hmessages⟩ hlimit
    with ⟨-, n, s', happly, hq, ⟨xs, rfl, hperform, hperm⟩, -⟩ | h
  · have hnone : s'.underway = [] := by rw [underway, hq]; rfl
    rw [hnone, List.append_nil] at hperm
    rw [← hperm.length_eq, List.length_map]
    exact .inl ⟨s', xs, happly, hq, hperm, hperform⟩
  · exact .inr h

end

/-! ## Any order -/

section
variable {s : Simulation ε ρ} (hledger : s.Ledger) (hdrawn : s.Drawn)
include hledger hdrawn

theorem nonneg_of_underway {m : Message} (hm : m ∈ s.underway) {peer : Peer}
    (hp : s.world.peers[m.peer]? = some peer) (hclamp : peer.config.negative = .clamp) : 0 ≤ m.delay.nanos := by
  obtain ⟨x, hx, rfl⟩ := List.mem_map.1 ((messages_perm hledger).subset (List.mem_append_right _ hm))
  refine nanos_nonneg_of_clamp hdrawn hx fun old hold => ?_
  rwa [← Option.some.inj (hp.symm.trans hold)]

theorem summable_of_underway {l : List Message} (hl : l ⊆ s.underway)
    (hdelays : ∀ m ∈ l, ∀ peer, s.world.peers[m.peer]? = some peer → peer.config.negative = .clamp ∨
      peer.stats.latencies.total.nanos.natAbs + (l.map fun m => m.delay.nanos.natAbs).sum < 2 ^ 63)
    {p : Nat} {peer : Peer} (hp : s.world.peers[p]? = some peer) :
    Delay.Summable peer.stats.latencies.total ((l.filter fun m => m.peer = p).map Message.delay) := by
  by_cases hall : ∀ m ∈ l.filter fun m => m.peer = p, 0 ≤ m.delay.nanos
  · exact .inl (List.forall_mem_map.2 hall)
  · -- a delay below zero is recorded only by a peer that does not clamp
    push Not at hall
    obtain ⟨m, hmem, hnegative⟩ := hall
    obtain ⟨hm, hto⟩ := List.mem_filter.1 hmem
    obtain rfl : m.peer = p := of_decide_eq_true hto
    rcases hdelays m hm peer hp with hclamp | hlt
    · have hnonneg := nonneg_of_underway hledger hdrawn (hl hm) hp hclamp
      omega
    · refine .inr (Nat.lt_of_le_of_lt (Nat.add_le_add_left ?_ _) hlt)
      rw [List.map_map]
      exact (List.filter_sublist.map fun m : Message => m.delay.nanos.natAbs).sum_le_sum fun _ _ => Nat.zero_le _

end

/-- In whatever order messages that are under way are delivered, at whatever times, each of them arrives, the peers
end with the same statistics, the report on any mesh is the same, and each recording engine has received the same
messages up to their order. A peer that does not clamp its delays must have room for its running total and the
magnitudes of all the delays together. Both orders fail alike if the counts have no room for the messages. -/
theorem deliveries_in_any_order {clock : Instant} {engines : List Engine} {commands : List Command}
    {answers : List Answer} {s : Simulation Engine ρ}
    (hrun : (start clock engines).run commands = .ok (answers, s)) {xs ys : List (Instant × Message)}
    (hsub : (xs.map Prod.snd).Subperm s.underway) (hperm : (xs.map Prod.snd).Perm (ys.map Prod.snd))
    (hdelays : ∀ m ∈ xs.map Prod.snd, ∀ peer, s.world.peers[m.peer]? = some peer → peer.config.negative = .clamp ∨
      peer.stats.latencies.total.nanos.natAbs +
        ((xs.map Prod.snd).map fun m => m.delay.nanos.natAbs).sum < 2 ^ 63) :
    (s.world.Takes (xs.map Prod.snd) ∧ ∃ w w' : World Engine ρ,
      s.world.perform xs = .ok w ∧ s.world.perform ys = .ok w' ∧ s.world.Delivered (xs.map Prod.snd) w ∧
      w.stats = w'.stats ∧ (∀ m, w.report m = w'.report m) ∧
      ∀ (i : Nat) (e : RecordingEngine), s.world.engines[i]? = some (.recording e) → ∃ e' e'',
        w.engines[i]? = some (.recording e') ∧ w'.engines[i]? = some (.recording e'') ∧
          e'.payloads.Perm e''.payloads) ∨
    ¬ s.world.Takes (xs.map Prod.snd) ∧ s.world.perform xs = .error .countOverflow ∧
      s.world.perform ys = .error .countOverflow := by
  have hs := sound_of_run hrun
  have hxs : ∀ x ∈ xs, x.2.peer < s.world.peers.length := fun x hx =>
    hs.target_of_underway (hsub.subset (List.mem_map_of_mem hx))
  have hys : ∀ y ∈ ys, y.2.peer < s.world.peers.length := fun y hy =>
    hs.target_of_underway (hsub.subset (hperm.mem_iff.2 (List.mem_map_of_mem hy)))
  rcases World.perform_cases hs.world hxs with ⟨htakes, w, hw, hdelivered⟩ | ⟨hover, herror⟩
  · rcases World.perform_cases hs.world hys with ⟨-, w', hw', hdelivered'⟩ | ⟨hover, -⟩
    · have hpeers := hdelivered.peers_eq hdelivered' hperm fun p peer =>
        summable_of_underway hs.ledger (drawn_of_run hrun) hsub.subset hdelays
      refine .inl ⟨htakes, w, w', hw, hw', hdelivered, congrArg (List.map Peer.stats) hpeers, fun m => ?_, fun i e he =>
        hdelivered.payloads_perm hdelivered' hperm he⟩
      simp only [World.report, hpeers]
    · exact absurd (htakes.perm hperm) hover
  · rcases World.perform_cases hs.world hys with ⟨htakes, -⟩ | ⟨-, herror'⟩
    · exact absurd (htakes.perm hperm.symm) hover
    · exact .inr ⟨hover, herror, herror'⟩

/-- Three messages, two of them through a peer that records delays below zero. -/
def crossing : List Command :=
  [.newPeer 0 jittery none, .newPeer 0 { jittery with latency := .zero, negative := .fireImmediately } none, .send 0 [1],
    .send 1 [2], .send 1 [3]]

theorem deliveries_in_any_order_crossing : ∃ answers s w w', soloRecorder.run crossing = .ok (answers, s) ∧
    s.world.perform (s.underway.map fun m => (s.clock, m)) = .ok w ∧
      s.world.perform (s.underway.reverse.map fun m => (s.clock, m)) = .ok w' ∧ w.stats = w'.stats ∧
        w.engines.map Engine.payloads ≠ w'.engines.map Engine.payloads := by
  obtain ⟨answers, s, ⟨w, w'⟩, hrun, hfind⟩ := exists_of_run soloRecorder crossing
    (fun s => (s.world.perform (s.underway.map fun m => (s.clock, m))).toOption.bind fun w =>
      ((s.world.perform (s.underway.reverse.map fun m => (s.clock, m))).toOption.map (w, ·)).filter fun x =>
        x.1.engines.map Engine.payloads ≠ x.2.engines.map Engine.payloads &&
          s.world.peers.all fun peer => peer.stats.latencies.total.nanos.natAbs +
            (s.underway.map fun m => m.delay.nanos.natAbs).sum < 2 ^ 63) (by decide +kernel)
  obtain ⟨w₁, hw₁, hfind⟩ := Option.bind_eq_some_iff.1 hfind
  obtain ⟨hfind, hcheck⟩ := Option.filter_eq_some_iff.1 hfind
  obtain ⟨w₂, hw₂, heq⟩ := Option.map_eq_some_iff.1 hfind
  cases heq
  simp only [Bool.and_eq_true, List.all_eq_true, decide_eq_true_eq] at hcheck
  obtain ⟨hdiffer, hsum⟩ := hcheck
  have hmessages : ∀ l : List Message, (l.map fun m => (s.clock, m)).map Prod.snd = l := fun l => by
    rw [List.map_map, Function.comp_def, List.map_id']
  have hsub : ((s.underway.map fun m => (s.clock, m)).map Prod.snd).Subperm s.underway := by rw [hmessages]
  have hperm : ((s.underway.map fun m => (s.clock, m)).map Prod.snd).Perm
      ((s.underway.reverse.map fun m => (s.clock, m)).map Prod.snd) := by
    rw [hmessages, hmessages]
    exact (List.reverse_perm _).symm
  have hdelays : ∀ m ∈ (s.underway.map fun m => (s.clock, m)).map Prod.snd, ∀ peer,
      s.world.peers[m.peer]? = some peer → peer.config.negative = .clamp ∨ peer.stats.latencies.total.nanos.natAbs +
        (((s.underway.map fun m => (s.clock, m)).map Prod.snd).map fun m => m.delay.nanos.natAbs).sum < 2 ^ 63 := by
    rw [hmessages]
    exact fun m _ peer hp => .inr (hsum peer (List.mem_of_getElem? hp))
  have hw := toOption_eq_some.1 hw₁
  have hw' := toOption_eq_some.1 hw₂
  rcases deliveries_in_any_order hrun hsub hperm hdelays with ⟨-, v, v', hv, hv', -, hstats, -⟩ | ⟨-, herror, -⟩
  · obtain rfl := Except.ok.inj (hw.symm.trans hv)
    obtain rfl := Except.ok.inj (hw'.symm.trans hv')
    exact ⟨answers, s, w, w', hrun, hw, hw', hstats, hdiffer⟩
  · rw [hw] at herror
    cases herror

end Simulation

end VirtualMesh

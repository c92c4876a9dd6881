import VirtualMesh.Proofs.Simulation.Ticks

/-!
# Messages under way

A peer counts the messages that are on their way to it, and they are the ones in the queue. When they arrive,
counts of the peer go up. A task fails only if 64 bits do not hold such a count, so it can be said beforehand
whether everything under way can arrive.
-/

namespace VirtualMesh

def Message.task (m : Message) : Task := .delivery m.peer m.payload m.delay

namespace Machine

theorem fire_eq_error {τ ο σ : Type} {h : Handler τ ο σ} {e : Entry τ} {rest : List (Entry τ)} {m : Machine τ ο σ}
    {f : Fault} : m.fire h e rest = .error f ↔ h e.task (max m.clock e.fireAt) m.world = .error f := by
  simp only [fire]
  cases h e.task (max m.clock e.fireAt) m.world <;> simp

end Machine

namespace Peer

/-- The counts of the peer have room for these messages. -/
def Takes (peer : Peer) (l : List Message) : Prop :=
  if peer.drops then peer.stats.dropped.toNat + l.length < 2 ^ 64
  else peer.stats.messages.toNat + l.length < 2 ^ 64 ∧
    peer.stats.bytes.toNat + (l.map fun m => m.payload.length).sum < 2 ^ 64

instance (peer : Peer) (l : List Message) : Decidable (peer.Takes l) :=
  inferInstanceAs (Decidable (if peer.drops then peer.stats.dropped.toNat + l.length < 2 ^ 64
    else peer.stats.messages.toNat + l.length < 2 ^ 64 ∧
      peer.stats.bytes.toNat + (l.map fun m => m.payload.length).sum < 2 ^ 64))

variable {peer new : Peer} {m : Message} {l l' : List Message}

theorem takes_nil (peer : Peer) : peer.Takes [] := by
  unfold Takes
  split
  · exact peer.stats.dropped.toNat_lt
  · exact ⟨peer.stats.messages.toNat_lt, peer.stats.bytes.toNat_lt⟩

theorem Takes.perm (h : peer.Takes l) (hperm : l.Perm l') : peer.Takes l' := by
  unfold Takes at *
  rwa [← hperm.length_eq, ← (hperm.map fun m => m.payload.length).sum_eq]

theorem Takes.sublist (h : peer.Takes l') (hl : l.Sublist l') : peer.Takes l := by
  have hlength := hl.length_le
  have hbytes := (hl.map fun m => m.payload.length).sum_le_sum fun _ _ => Nat.zero_le _
  unfold Takes at *
  by_cases hd : peer.drops = true
  · rw [if_pos hd] at *
    omega
  · rw [if_neg hd] at *
    omega

theorem arrive_eq_ok {delay : Delay} {size : Nat} : peer.arrive delay size = .ok new ↔ ∃ stats,
    (peer.drops = true ∧ peer.stats.recordDrop = .ok stats ∨
      peer.drops = false ∧ peer.stats.recordDelivery delay size = .ok stats) ∧
        new = { peer with stats, inFlight := peer.inFlight - 1 } := by
  have hmap : ∀ r : Except Fault PeerStats,
      (r.map fun stats => { peer with stats, inFlight := peer.inFlight - 1 }) = .ok new ↔
        ∃ stats, r = .ok stats ∧ new = { peer with stats, inFlight := peer.inFlight - 1 } := by
    intro r
    cases r <;> simp [Except.map, eq_comm]
  unfold arrive
  cases peer.drops <;> simp [hmap]

/-- A message that arrives takes up its room, and leaves what there is for others. -/
theorem takes_cons (h : peer.arrive m.delay m.payload.length = .ok new) : peer.Takes (m :: l) ↔ new.Takes l := by
  obtain ⟨stats, ⟨hd, hstats⟩ | ⟨hd, hstats⟩, rfl⟩ := arrive_eq_ok.1 h
  · obtain ⟨hdropped, -⟩ := PeerStats.recordDrop_eq_ok.1 hstats
    have hd' : drops { peer with stats, inFlight := peer.inFlight - 1 } = true := hd
    simp only [Takes, hd, hd', if_true, List.length_cons]
    omega
  · obtain ⟨hmessages, hbytes, -⟩ := PeerStats.recordDelivery_eq_ok.1 hstats
    have hd' : drops { peer with stats, inFlight := peer.inFlight - 1 } = false := hd
    simp only [Takes, hd, hd', Bool.false_eq_true, if_false, List.length_cons, List.map_cons, List.sum_cons]
    omega

theorem arrive_cases (peer : Peer) (m : Message) (l : List Message) :
    (∃ new, peer.arrive m.delay m.payload.length = .ok new) ∨
      ¬ peer.Takes (m :: l) ∧ peer.arrive m.delay m.payload.length = .error .countOverflow := by
  cases hd : peer.drops with
  | true =>
    rcases peer.stats.recordDrop_cases with ⟨-, stats, hstats⟩ | ⟨hover, herror⟩
    · exact .inl ⟨_, arrive_eq_ok.2 ⟨stats, .inl ⟨hd, hstats⟩, rfl⟩⟩
    · refine .inr ⟨?_, by simp [arrive, hd, herror, Except.map]⟩
      simp only [Takes, hd, if_true, List.length_cons]
      omega
  | false =>
    rcases peer.stats.recordDelivery_cases m.delay m.payload.length with ⟨-, stats, hstats⟩ | ⟨hover, herror⟩
    · exact .inl ⟨_, arrive_eq_ok.2 ⟨stats, .inr ⟨hd, hstats⟩, rfl⟩⟩
    · refine .inr ⟨?_, by simp [arrive, hd, herror, Except.map]⟩
      simp only [Takes, hd, Bool.false_eq_true, if_false, List.length_cons, List.map_cons, List.sum_cons]
      omega

end Peer

namespace World

variable {ε ρ : Type} {w : World ε ρ} {peer new : Peer} {m : Message} {l l' : List Message}

/-- The counts of all peers have room for these messages. -/
def Takes (w : World ε ρ) (l : List Message) : Prop :=
  ∀ p (hp : p < w.peers.length), w.peers[p].Takes (l.filter fun m => m.peer = p)

instance (w : World ε ρ) (l : List Message) : Decidable (w.Takes l) :=
  inferInstanceAs (Decidable (∀ p (hp : p < w.peers.length), w.peers[p].Takes (l.filter fun m => m.peer = p)))

theorem takes_iff : w.Takes l ↔
    ∀ (p : Nat) (peer : Peer), w.peers[p]? = some peer → peer.Takes (l.filter fun m => m.peer = p) := by
  constructor
  · intro h p peer hp
    obtain ⟨hlt, rfl⟩ := List.getElem?_eq_some_iff.1 hp
    exact h p hlt
  · intro h p hp
    exact h p _ (List.getElem?_eq_getElem hp)

theorem takes_nil (w : World ε ρ) : w.Takes [] := fun p hp => w.peers[p].takes_nil

theorem Takes.perm (h : w.Takes l) (hperm : l.Perm l') : w.Takes l' :=
  fun p hp => (h p hp).perm (hperm.filter _)

theorem takes_setPeer (hp : w.peers[m.peer]? = some peer) (hnew : peer.arrive m.delay m.payload.length = .ok new) :
    w.Takes (m :: l) ↔ (w.setPeer m.peer new).Takes l := by
  rw [takes_iff, takes_iff]
  have hlt := (List.getElem?_eq_some_iff.1 hp).1
  have hself : (w.setPeer m.peer new).peers[m.peer]? = some new := List.getElem?_set_self hlt
  have hother : ∀ q, q ≠ m.peer → (w.setPeer m.peer new).peers[q]? = w.peers[q]? := fun q hq =>
    List.getElem?_set_ne hq.symm
  refine forall_congr' fun q => ?_
  by_cases hq : q = m.peer
  · subst hq
    rw [hself, List.filter_cons_of_pos (by simp)]
    constructor
    · rintro h _ ⟨⟩
      exact (Peer.takes_cons hnew).1 (h peer hp)
    · intro h old hold
      obtain rfl := Option.some.inj (hold.symm.trans hp)
      exact (Peer.takes_cons hnew).2 (h new rfl)
  · rw [hother q hq, List.filter_cons_of_neg (by simpa using Ne.symm hq)]

section
variable [Consensus ε] {x : ε}

theorem handler_delivery (hp : w.peers[m.peer]? = some peer) (hx : w.engines[peer.engine]? = some x) (now : Instant) :
    handler m.task now w = (peer.arrive m.delay m.payload.length).map fun new =>
      if peer.drops then ⟨w.setPeer m.peer new, .dropped, []⟩
      else ⟨(w.setPeer m.peer new).setEngine peer.engine (Consensus.receive x m.payload).1, .delivered, []⟩ := by
  rw [Message.task, handler, deliver_eq_map hp]
  cases peer.arrive m.delay m.payload.length with
  | error f => rfl
  | ok arrived =>
    have hengine := modifyEngine_eq (w := w.setPeer m.peer arrived) hx fun x => (Consensus.receive x m.payload).1
    simp only [Except.map, hengine]
    cases peer.drops <;> rfl

theorem WellFormed.handler_cases (hw : w.WellFormed) (hm : m.peer < w.peers.length) (now : Instant) (l : List Message) :
    (∃ peer x new, w.peers[m.peer]? = some peer ∧ w.engines[peer.engine]? = some x ∧
        peer.arrive m.delay m.payload.length = .ok new ∧ handler m.task now w = .ok (if peer.drops then
          ⟨w.setPeer m.peer new, .dropped, []⟩
        else ⟨(w.setPeer m.peer new).setEngine peer.engine (Consensus.receive x m.payload).1, .delivered, []⟩)) ∨
      ¬ w.Takes (m :: l) ∧ handler m.task now w = .error .countOverflow := by
  obtain ⟨peer, x, hp, hx⟩ := hw.exists_peer hm
  rw [handler_delivery hp hx now]
  rcases peer.arrive_cases m (l.filter fun n => n.peer = m.peer) with ⟨new, hnew⟩ | ⟨hover, herror⟩
  · exact .inl ⟨peer, x, new, hp, hx, hnew, by rw [hnew]; rfl⟩
  · refine .inr ⟨fun htakes => hover ?_, by rw [herror]; rfl⟩
    have htakes := takes_iff.1 htakes m.peer peer hp
    rwa [List.filter_cons_of_pos (by simp)] at htakes

end

end World

namespace Simulation

variable {ε ρ : Type}

/-- The counts of the peers have room for all messages under way. -/
def Fits (s : Simulation ε ρ) : Prop := s.world.Takes s.underway

instance (s : Simulation ε ρ) : Decidable s.Fits := inferInstanceAs (Decidable (s.world.Takes s.underway))

/-- They have room for those that are due at `t`. -/
def FitsBy (s : Simulation ε ρ) (t : Instant) : Prop := s.world.Takes (s.underway.filter fun m => m.fireAt ≤ t)

instance (s : Simulation ε ρ) (t : Instant) : Decidable (s.FitsBy t) :=
  inferInstanceAs (Decidable (s.world.Takes (s.underway.filter fun m => m.fireAt ≤ t)))

/-- Each peer has as many messages in flight as are under way to it. -/
def Flights (s : Simulation ε ρ) : Prop :=
  ∀ (p : Nat) (peer : Peer), s.world.peers[p]? = some peer → peer.inFlight = s.underway.countP fun m => m.peer = p

/-! ## What each change does to the messages under way -/

theorem underway_put (s : Simulation ε ρ) (x : Submission Task) :
    (Simulation.underway (s.put x)).Perm ((Message.of? (s.entryOf x)).toList ++ s.underway) := by
  have hperm := (Machine.insert_perm (s.entryOf x) s.queue).filterMap Message.of?
  cases hm : Message.of? (s.entryOf x) with
  | none => rwa [List.filterMap_cons_none hm] at hperm
  | some m => rwa [List.filterMap_cons_some hm] at hperm

theorem underway_putAll_of_ticks {s : Simulation ε ρ} {ss : List (Submission Task)}
    (h : ∀ y ∈ ss, ∃ p, y.task = .tick p) : (Simulation.underway (Machine.putAll ss s)).Perm s.underway := by
  induction ss generalizing s with
  | nil => exact .refl _
  | cons y ss ih =>
    obtain ⟨⟨p, hy⟩, hss⟩ := List.forall_mem_cons.1 h
    have hput := underway_put s y
    rw [Message.of?_entryOf_tick hy] at hput
    exact (ih hss).trans hput

theorem underway_arm (s : Simulation ε ρ) (interval : Duration) (p : Nat) (t : Instant) :
    (Simulation.underway (Machine.putAll (Ticker.arm interval (.tick p) t) s)).Perm s.underway :=
  underway_putAll_of_ticks fun _ hy => ⟨p, (Ticker.fireAt_of_mem_arm hy).2⟩

section
variable {s : Simulation ε ρ} {e : Entry Task} {rest : List (Entry Task)} {p : Nat}

theorem underway_of_queue (hq : s.queue = e :: rest) :
    s.underway = (Message.of? e).toList ++ rest.filterMap Message.of? := by
  rw [underway, hq]
  cases hm : Message.of? e <;> simp [hm]

theorem underway_of_delivery {payload : Bytes} {delay : Delay} (hq : s.queue = e :: rest)
    (ht : e.task = .delivery p payload delay) :
    s.underway = ⟨e.number, e.fireAt, p, payload, delay⟩ :: rest.filterMap Message.of? := by
  rw [underway_of_queue hq, Message.of?, ht]
  rfl

theorem underway_of_tick (hq : s.queue = e :: rest) (ht : e.task = .tick p) :
    s.underway = rest.filterMap Message.of? := by
  rw [underway_of_queue hq, Message.of?, ht]
  rfl

end

variable {s s' : Simulation ε ρ}

theorem Sound.target_of_underway (hs : s.Sound) {m : Message} (hm : m ∈ s.underway) :
    m.peer < s.world.peers.length := by
  obtain ⟨e, he, hmessage⟩ := List.mem_filterMap.1 hm
  obtain rfl := Message.of?_eq_some.1 hmessage
  exact hs.target_of_queue he

theorem Flights.congr (h : s.Flights) (hpeers : s'.world.peers = s.world.peers) (hperm : s'.underway.Perm s.underway) :
    s'.Flights := by
  intro p peer hp
  rw [hpeers] at hp
  rw [h p peer hp, hperm.countP_eq]

theorem Flights.setPeer (h : s.Flights) {p : Nat} {new : Peer} (hpeers : s'.world.peers = s.world.peers.set p new)
    (hnew : new.inFlight = s'.underway.countP fun m => m.peer = p)
    (hother : ∀ q, q ≠ p → (s'.underway.countP fun m => m.peer = q) = s.underway.countP fun m => m.peer = q) :
    s'.Flights := by
  intro q peer hq
  rw [hpeers] at hq
  by_cases hqp : p = q
  · subst hqp
    rw [List.getElem?_set_self (by simpa using (List.getElem?_eq_some_iff.1 hq).1)] at hq
    rw [← Option.some.inj hq, hnew]
  · rw [List.getElem?_set_ne hqp] at hq
    rw [h q peer hq, hother q (Ne.symm hqp)]

/-- A message that arrives is under way no longer, and its peer counts one less. -/
theorem Flights.arrive (h : s.Flights) {e : Entry Task} {rest : List (Entry Task)} {p : Nat} {payload : Bytes}
    {delay : Delay} {old new : Peer} (hq : s.queue = e :: rest) (ht : e.task = .delivery p payload delay)
    (hp : s.world.peers[p]? = some old) (hnew : new.inFlight = old.inFlight - 1)
    (hpeers : s'.world.peers = s.world.peers.set p new) (hunderway : s'.underway = rest.filterMap Message.of?) :
    s'.Flights := by
  have hbefore := underway_of_delivery hq ht
  rw [← hunderway] at hbefore
  refine h.setPeer hpeers ?_ fun q hq => ?_
  · rw [hnew, h p old hp, hbefore]
    simp
  · rw [hbefore, List.countP_cons_of_neg (by simpa using Ne.symm hq)]

variable [NormalSource ρ] [Consensus ε] {a : Action} {e : Entry Task}

theorem Step.underway_of_fire (hstep : Step s (.fire e) s') :
    s.underway.Perm ((Message.of? e).toList ++ s'.underway) := by
  cases hstep with
  | deliver hq | drop hq | idle hq => exact .of_eq (underway_of_queue hq)
  | tick hq ht =>
    -- what the tick puts into the queue is no message
    rw [underway_of_queue hq]
    exact .append_left _ (underway_arm (s.popped _ _ _ _) _ _ _).symm

theorem Step.flights (hs : s.Sound) (h : s.Flights) (hstep : Step s a s') : s'.Flights := by
  cases hstep with
  | deliver hq ht hp => exact h.arrive hq ht hp rfl rfl rfl
  | drop hq ht hp => exact h.arrive hq ht hp rfl rfl rfl
  | tick hq ht =>
    refine h.congr ?_ ((underway_arm (s.popped _ _ _ _) _ _ _).trans (.of_eq (underway_of_tick hq ht).symm))
    rw [Machine.world_putAll]
    rfl
  | idle hq ht => exact h.congr rfl (.of_eq (underway_of_tick hq ht).symm)
  | @send p payload peer source fireAt hp hsource hat =>
    have hafter := underway_put (s.withWorld ((s.world.setSource peer.source (peer.latency.sample source).2).setPeer p
      { peer with inFlight := peer.inFlight + 1 }))
        ⟨fireAt, .delivery p payload (peer.recorded (peer.latency.sample source).1)⟩
    refine h.setPeer rfl ?_ fun q hq => ?_
    · rw [hafter.countP_eq, h p peer hp]
      exact (List.countP_cons_of_pos (by simp)).symm
    · rw [hafter.countP_eq]
      exact List.countP_cons_of_neg (by simpa using Ne.symm hq)
  | update =>
    refine h.congr ?_ (underway_arm (s.withWorld _) _ _ _)
    rw [Machine.world_putAll]
    rfl
  | @close p peer hp => exact h.setPeer rfl (h p peer hp) fun _ _ => rfl
  | @addPeers peers hpeers =>
    intro p peer hp
    change (s.world.peers ++ peers)[p]? = some peer at hp
    by_cases hlt : p < s.world.peers.length
    · rw [List.getElem?_append_left hlt] at hp
      exact h p peer hp
    · -- a peer that is new has nothing sent to it
      rw [List.getElem?_append_right (by omega)] at hp
      rw [(hpeers peer (List.mem_of_getElem? hp)).1]
      refine (List.countP_eq_zero.2 fun m hm => ?_).symm
      have htarget := hs.target_of_underway hm
      simp only [decide_eq_true_eq]
      omega
  | _ => exact h.congr rfl (.refl _)

theorem flights_of_run {clock : Instant} {engines : List ε} {commands : List Command} {answers : List Answer}
    (hrun : (start clock engines).run commands = .ok (answers, s)) : s.Flights := by
  obtain ⟨as, htrace, -, -⟩ := run_trace (.start clock engines) hrun
  refine (htrace.induct (P := fun s => s.Sound ∧ s.Flights) (A := fun _ => True)
    (fun _ h hstep => ⟨hstep.sound h.1, hstep.flights h.1 h.2⟩) (fun _ _ => trivial) ⟨.start clock engines, ?_⟩).2
  exact fun _ _ hp => nomatch hp

/-! ## Room for what is under way -/

omit [NormalSource ρ] [Consensus ε] in
theorem fitsBy_last : s.FitsBy .last ↔ s.Fits := by
  rw [FitsBy, Fits, List.filter_eq_self.2 fun m _ => decide_eq_true (Instant.le_last m.fireAt)]

omit [NormalSource ρ] [Consensus ε] in
theorem Fits.fitsBy (h : s.Fits) (t : Instant) : s.FitsBy t :=
  fun p hp => (h p hp).sublist (List.filter_sublist.filter _)

theorem Step.fitsBy_iff {t : Instant} (hle : e.fireAt ≤ t) (hstep : Step s (.fire e) s') :
    s.FitsBy t ↔ s'.FitsBy t := by
  have hfire := hstep.underway_of_fire
  unfold FitsBy
  cases hstep with
  | @deliver _ rest p payload delay peer stats x hq ht hp hd hs hx =>
    rw [underway_of_delivery hq ht, List.filter_cons_of_pos (by simpa using hle)]
    exact World.takes_setPeer (m := ⟨e.number, e.fireAt, p, payload, delay⟩) hp
      (Peer.arrive_eq_ok.2 ⟨stats, .inr ⟨hd, hs⟩, rfl⟩)
  | @drop _ rest p payload delay peer stats hq ht hp hd hs =>
    rw [underway_of_delivery hq ht, List.filter_cons_of_pos (by simpa using hle)]
    exact World.takes_setPeer (m := ⟨e.number, e.fireAt, p, payload, delay⟩) hp
      (Peer.arrive_eq_ok.2 ⟨stats, .inl ⟨hd, hs⟩, rfl⟩)
  | @tick _ rest p peer x hq ht =>
    -- engines and the queue change, the peers and what is under way to them do not
    rw [Message.of?, ht] at hfire
    rw [Machine.world_putAll]
    exact ⟨fun h => h.perm (hfire.filter _), fun h => World.Takes.perm (w := s.world) h (hfire.symm.filter _)⟩
  | @idle _ rest p outcome hq ht =>
    rw [underway_of_tick hq ht]
    rfl

omit [NormalSource ρ] in
theorem fire_cases (hs : s.Sound) {rest : List (Entry Task)} (hq : s.queue = e :: rest) {t : Instant}
    (hle : e.fireAt ≤ t) : (∃ s', s.fire World.handler e rest = .ok s') ∨
      ¬ s.FitsBy t ∧ s.fire World.handler e rest = .error .countOverflow := by
  cases ht : e.task with
  | delivery p payload delay =>
    let m : Message := ⟨e.number, e.fireAt, p, payload, delay⟩
    have htask : e.task = m.task := ht
    have hp : m.peer < s.world.peers.length := by
      have htarget := hs.target_of_queue (hq ▸ List.mem_cons_self)
      rwa [htask] at htarget
    rw [FitsBy, underway_of_delivery hq ht, List.filter_cons_of_pos (by simpa using hle)]
    rcases hs.world.handler_cases hp (max s.clock e.fireAt) ((rest.filterMap Message.of?).filter fun m => m.fireAt ≤ t)
      with ⟨_, _, _, -, -, -, hok⟩ | ⟨hover, herror⟩
    · exact .inl ⟨_, Machine.fire_eq_ok.2 ⟨_, htask ▸ hok, rfl⟩⟩
    · exact .inr ⟨hover, Machine.fire_eq_error.2 (htask ▸ herror)⟩
  | tick p =>
    refine .inl ?_
    obtain ⟨r, hr⟩ : ∃ r, World.handler e.task (max s.clock e.fireAt) s.world = .ok r := by
      rw [ht, World.handler]
      split
      · exact ⟨_, rfl⟩
      · exact ⟨_, rfl⟩
    exact ⟨_, Machine.fire_eq_ok.2 ⟨r, hr, rfl⟩⟩

end Simulation

end VirtualMesh

import VirtualMesh.Proofs.Latency
import VirtualMesh.Proofs.Simulation.Messages

/-!
# The order of arrival

Messages arrive in the order in which they are due, and of those due at one time in the order in
which they were sent. If no peer drops messages, a recording engine therefore holds the messages
that have arrived at its peers in that order, each of them once.
-/

namespace VirtualMesh

theorem filter_prefix_of_pairwise {α : Type} {r : α → α → Prop} {p : α → Bool} :
    ∀ {l : List α}, l.Pairwise r → (∀ x ∈ l, ∀ y ∈ l, r x y → p y = true → p x = true) → l.filter p <+: l
  | [], _, _ => List.prefix_rfl
  | x :: xs, hl, hp => by
    obtain ⟨hx, hxs⟩ := List.pairwise_cons.1 hl
    by_cases h : p x = true
    · rw [List.filter_cons_of_pos h, List.prefix_cons_inj]
      refine filter_prefix_of_pairwise hxs ?_
      intro y hy z hz
      exact hp y (List.mem_cons_of_mem _ hy) z (List.mem_cons_of_mem _ hz)
    · have hnone : xs.filter p = [] := by
        refine List.filter_eq_nil_iff.2 ?_
        intro y hy hpy
        exact h (hp x List.mem_cons_self y (List.mem_cons_of_mem _ hy) (hx y hy) hpy)
      rw [List.filter_cons_of_neg h, hnone]
      exact List.nil_prefix

def Engine.payloads : Engine → List Bytes
  | .recording e => e.payloads
  | .gossip _ => []

/-- Messages in the order in which they arrive. -/
def Message.NoLater (m n : Message) : Prop :=
  m.fireAt.nanos < n.fireAt.nanos ∨ m.fireAt.nanos = n.fireAt.nanos ∧ m.number ≤ n.number

/-- Sendings by the time at which they are due, and then by number. -/
def Sending.noLater (x y : Sending) : Bool := x.due < y.due || (x.due = y.due && x.number ≤ y.number)

theorem Sending.noLater_iff {x y : Sending} :
    x.noLater y = true ↔ x.due < y.due ∨ x.due = y.due ∧ x.number ≤ y.number := by
  simp [noLater]

theorem Sending.pairwise_mergeSort (l : List Sending) :
    (l.mergeSort noLater).Pairwise fun x y => x.noLater y = true := by
  refine List.pairwise_mergeSort ?_ ?_ l
  · intro x y z hxy hyz
    rw [noLater_iff] at *
    omega
  · intro x y
    rw [Bool.or_eq_true, noLater_iff, noLater_iff]
    omega

namespace Simulation

variable {ε ρ : Type}

section
variable (s : Simulation ε ρ)

def hasArrived (number : Nat) : Bool := s.arrivals.any fun x => x.number = number

/-- The messages that have arrived at peers that lead to an engine, as they were sent and in the order
in which they were due. -/
def dueAt (engine : Nat) : List Sending :=
  (s.sent.filter fun x => s.world.leadsTo engine x.peer && s.hasArrived x.number).mergeSort Sending.noLater

end

/-! ## Order in the history -/

section
variable {s : Simulation ε ρ}

theorem Sound.number_ne (hs : s.Sound) {x : Arrival} (hx : x ∈ s.arrivals) {m : Message}
    (hm : m ∈ s.underway) : x.number ≠ m.number := by
  obtain ⟨e, he, hmessage⟩ := List.mem_filterMap.1 hm
  obtain rfl := Message.of?_eq_some.1 hmessage
  have hdisjoint := (List.nodup_append.1 hs.ledger.nodup).2.2
  refine hdisjoint x.number ?_ m.number ?_
  · exact List.mem_map_of_mem (f := fun y => y.2.1.number) (mem_arrivals.1 hx)
  · exact List.mem_map_of_mem (f := Entry.number) he

theorem Sound.pairwise_sent (hs : s.Sound) :
    s.sent.Pairwise fun x y => x.clock.nanos ≤ y.clock.nanos ∧ x.number < y.number := by
  have hnumbers : s.submitted.Pairwise fun x y => x.2.number < y.2.number := by
    rw [← List.pairwise_map (f := fun x : Instant × Entry Task => x.2.number) (R := (· < ·)),
      hs.ledger.numbered]
    exact List.pairwise_lt_range
  refine List.Pairwise.filterMap _ ?_ (hs.punctual.submittedInOrder.and hnumbers)
  rintro ⟨t, e⟩ ⟨u, f⟩ ⟨hclock, hnumber⟩ x hx y hy
  obtain ⟨m, hm, rfl⟩ := Option.map_eq_some_iff.1 hx
  obtain ⟨n, hn, rfl⟩ := Option.map_eq_some_iff.1 hy
  obtain rfl := Message.of?_eq_some.1 hm
  obtain rfl := Message.of?_eq_some.1 hn
  exact ⟨hclock, hnumber⟩

theorem Sound.sent_inj (hs : s.Sound) {x y : Sending} (hx : x ∈ s.sent) (hy : y ∈ s.sent)
    (h : x.number = y.number) : x = y := by
  have hnodup : (s.sent.map fun x => x.number).Nodup := by
    rw [List.Nodup, List.pairwise_map]
    exact hs.pairwise_sent.imp fun h => Nat.ne_of_lt h.2
  exact List.inj_on_of_nodup_map hnodup hx hy h

theorem Sound.noLater_antisymm (hs : s.Sound) {x y : Sending} (hx : x ∈ s.sent) (hy : y ∈ s.sent)
    (hxy : x.noLater y = true) (hyx : y.noLater x = true) : x = y := by
  rw [Sending.noLater_iff] at hxy hyx
  refine hs.sent_inj hx hy ?_
  omega

theorem Sound.pairwise_arrivals (hs : s.Sound) :
    (s.arrivals.map Arrival.toMessage).Pairwise Message.NoLater := by
  rw [map_arrivals]
  refine List.Pairwise.filterMap _ ?_ hs.punctual.ordered
  intro e f hbefore m hm n hn
  obtain rfl := Message.of?_eq_some.1 hm
  obtain rfl := Message.of?_eq_some.1 hn
  unfold Entry.Before at hbefore
  unfold Message.NoLater
  simp only at hbefore
  omega

theorem hasArrived_iff {n : Nat} : s.hasArrived n = true ↔ ∃ x ∈ s.arrivals, x.number = n := by
  simp [hasArrived]

theorem Sound.hasArrived_of_underway (hs : s.Sound) {m : Message} (hm : m ∈ s.underway) :
    s.hasArrived m.number = false := by
  rw [Bool.eq_false_iff]
  intro h
  obtain ⟨x, hx, hnumber⟩ := hasArrived_iff.1 h
  exact hs.number_ne hx hm hnumber

/-- What is due no later than a message that has arrived has arrived itself. -/
theorem Sound.hasArrived_of_noLater (hs : s.Sound) {m n : Message} (hm : m ∈ s.sent.map Sending.toMessage)
    (hle : m.NoLater n) (hn : s.hasArrived n.number = true)
    (hn' : n ∈ s.sent.map Sending.toMessage) : s.hasArrived m.number = true := by
  rcases List.mem_append.1 ((messages_perm hs.ledger).mem_iff.2 hm) with h | h
  · obtain ⟨x, hx, rfl⟩ := List.mem_map.1 h
    exact hasArrived_iff.2 ⟨x, hx, rfl⟩
  · rcases List.mem_append.1 ((messages_perm hs.ledger).mem_iff.2 hn') with h' | h'
    · obtain ⟨y, hy, rfl⟩ := List.mem_map.1 h'
      obtain ⟨e, he, hmessage⟩ := List.mem_filterMap.1 h
      obtain rfl := Message.of?_eq_some.1 hmessage
      have hnext := hs.punctual.next _ (mem_arrivals.1 hy) _ he
      unfold Entry.Before at hnext
      unfold Message.NoLater at hle
      simp only at hnext
      omega
    · rw [hs.hasArrived_of_underway h'] at hn
      cases hn

end

section
variable [NormalSource ρ] {s : Simulation ε ρ}

theorem Drawn.noLater_iff (hd : s.Drawn) {x y : Sending} (hx : x ∈ s.sent) (hy : y ∈ s.sent) :
    x.noLater y = true ↔ x.toMessage.NoLater y.toMessage := by
  rw [Sending.noLater_iff, Message.NoLater, (hd x hx).1, (hd y hy).1]

theorem Sound.map_dueAt (hs : s.Sound) (hd : s.Drawn) (i : Nat) :
    (s.dueAt i).map Sending.toMessage =
      (s.arrivals.filter fun x => s.world.leadsTo i x.peer).map Arrival.toMessage := by
  have hmem : ∀ x ∈ s.dueAt i, x ∈ s.sent := fun x hx =>
    (List.mem_filter.1 (List.mem_mergeSort.1 hx)).1
  have hdue : ((s.dueAt i).map Sending.toMessage).Pairwise Message.NoLater := by
    rw [List.pairwise_map]
    refine (Sending.pairwise_mergeSort _).imp_of_mem ?_
    intro x y hx hy hle
    exact (hd.noLater_iff (hmem x hx) (hmem y hy)).1 hle
  have harrived : ((s.arrivals.filter fun x => s.world.leadsTo i x.peer).map Arrival.toMessage).Pairwise
      Message.NoLater :=
    hs.pairwise_arrivals.sublist (List.filter_sublist.map _)
  -- Of all messages, those that have arrived are the arrivals and none of those under way.
  have hperm : ((s.dueAt i).map Sending.toMessage).Perm
      ((s.arrivals.filter fun x => s.world.leadsTo i x.peer).map Arrival.toMessage) := by
    let q : Message → Bool := fun m => s.world.leadsTo i m.peer && s.hasArrived m.number
    have hsent : (s.dueAt i).map Sending.toMessage |>.Perm ((s.sent.map Sending.toMessage).filter q) := by
      rw [List.filter_map]
      exact (List.mergeSort_perm _ _).map _
    have harrivals : (s.arrivals.map Arrival.toMessage).filter q =
        (s.arrivals.filter fun x => s.world.leadsTo i x.peer).map Arrival.toMessage := by
      rw [List.filter_map]
      refine congrArg _ (List.filter_congr ?_)
      intro x hx
      have hx' : s.hasArrived x.number = true := hasArrived_iff.2 ⟨x, hx, rfl⟩
      simp [q, hx']
    have hunderway : s.underway.filter q = [] := by
      refine List.filter_eq_nil_iff.2 ?_
      intro m hm
      simp [q, hs.hasArrived_of_underway hm]
    have hall := (messages_perm hs.ledger).filter q
    rw [List.filter_append, harrivals, hunderway, List.append_nil] at hall
    exact hsent.trans hall.symm
  refine hperm.eq_of_pairwise ?_ hdue harrived
  intro m n hm hn hmn hnm
  obtain ⟨x, hx, rfl⟩ := List.mem_map.1 hm
  obtain ⟨y, hy, rfl⟩ := List.mem_map.1 (hperm.mem_iff.2 hn)
  rw [hs.noLater_antisymm (hmem x hx) (hmem y hy) ((hd.noLater_iff (hmem x hx) (hmem y hy)).2 hmn)
    ((hd.noLater_iff (hmem y hy) (hmem x hx)).2 hnm)]

/-- Messages with one delay arrive in the order in which they were sent. -/
theorem Sound.dueAt_prefix (hs : s.Sound) (hd : s.Drawn) {i p : Nat} (hp : s.world.leadsTo i p = true)
    {d : Delay} (hdelay : ∀ x ∈ s.sent, x.peer = p → x.delay = d) :
    (s.dueAt i).filter (fun x => x.peer = p) <+: s.sent.filter fun x => x.peer = p := by
  have hsent : ∀ x ∈ s.sent.filter (fun x => x.peer = p), x ∈ s.sent := fun x hx => (List.mem_filter.1 hx).1
  have hpairwise : (s.sent.filter fun x => x.peer = p).Pairwise fun x y => x.noLater y = true := by
    refine (hs.pairwise_sent.filter _).imp_of_mem ?_
    rintro x y hx hy ⟨hclock, hnumber⟩
    obtain ⟨hx, hxp⟩ := List.mem_filter.1 hx
    obtain ⟨hy, hyp⟩ := List.mem_filter.1 hy
    rw [Sending.noLater_iff, Sending.due, Sending.due, hdelay x hx (by simpa using hxp),
      hdelay y hy (by simpa using hyp)]
    omega
  have heq : (s.dueAt i).filter (fun x => x.peer = p) =
      (s.sent.filter fun x => x.peer = p).filter fun x => s.hasArrived x.number := by
    have hperm : ((s.dueAt i).filter fun x => x.peer = p).Perm
        ((s.sent.filter fun x => x.peer = p).filter fun x => s.hasArrived x.number) := by
      refine ((List.mergeSort_perm _ _).filter _).trans (List.Perm.of_eq ?_)
      rw [List.filter_filter, List.filter_filter]
      refine List.filter_congr ?_
      intro x hx
      by_cases hxp : x.peer = p
      · simp [hxp, hp]
      · simp [hxp]
    refine hperm.eq_of_pairwise ?_ ((Sending.pairwise_mergeSort _).filter _) (hpairwise.filter _)
    intro x y hx hy hxy hyx
    exact hs.noLater_antisymm (hsent x (List.mem_filter.1 (hperm.mem_iff.1 hx)).1)
      (hsent y (List.mem_filter.1 hy).1) hxy hyx
  rw [heq]
  refine filter_prefix_of_pairwise hpairwise ?_
  intro x hx y hy hle harrived
  have hle' := (hd.noLater_iff (hsent x hx) (hsent y hy)).1 hle
  exact hs.hasArrived_of_noLater (List.mem_map_of_mem (hsent x hx)) hle' harrived
    (List.mem_map_of_mem (hsent y hy))

end

/-! ## What engines record -/

section
variable [NormalSource ρ] {s s' : Simulation Engine ρ} {a : Action} {as : List Action}

/-- An engine holds what it was given, and then what arrived at its peers, none of which drops
messages. -/
structure Recorded (i : Nat) (given : List Bytes) (s : Simulation Engine ρ) : Prop where
  dropsNothing : s.DropsNothing
  payloads : ∃ e, s.world.engines[i]? = some (.recording e) ∧ e.payloads = given ++
    (s.arrivals.filter fun x => s.world.leadsTo i x.peer).map fun x => x.payload

omit [NormalSource ρ] in
theorem payloads_of_tended {w : World Engine ρ} {i : Nat} {e : RecordingEngine} {y : Engine}
    (h : w.Tended i a (.recording e) y) (ha : ∀ message, a ≠ .receive i message) :
    ∃ e', y = .recording e' ∧ e'.payloads = e.payloads := by
  cases h with
  | alone | update => exact ⟨_, rfl, rfl⟩
  | receive hreceive => exact absurd hreceive (ha _)
  | @propose state _ _ _ hy =>
    cases hy
    exact ⟨e.propose state, rfl, rfl⟩
  | @reject error _ _ hy =>
    cases hy
    exact ⟨{ e with rejectWith := some error }, rfl, rfl⟩
  | attach hy => cases hy

theorem Step.recorded (hs : s.Sound) {i : Nat} {given : List Bytes} (h : s.Recorded i given)
    (hadded : ∀ p ∈ a.added, p.config.onClose = .deliver) (ha : ∀ message, a ≠ .receive i message)
    (hstep : Step s a s') : s'.Recorded i given := by
  constructor
  case dropsNothing => exact hstep.dropsNothing h.dropsNothing hadded
  case payloads =>
    obtain ⟨e, he, hpayloads⟩ := h.payloads
    have hleads : (s.arrivals.filter fun x => s'.world.leadsTo i x.peer) =
        s.arrivals.filter fun x => s.world.leadsTo i x.peer := by
      refine List.filter_congr ?_
      intro x hx
      rw [hstep.leadsTo_eq (hs.peer_lt_of_arrival hx)]
    obtain ⟨y, hy, ⟨harrivals, htended⟩ | ⟨m, peer, harrivals, hpeer, hreceive⟩⟩ := hstep.engine_cases he
    · obtain ⟨e', rfl, hkept⟩ := payloads_of_tended htended ha
      exact ⟨e', hy, by rw [hkept, hpayloads, harrivals, hleads]⟩
    · have hdelivers := h.dropsNothing.drops_eq_false (List.mem_of_getElem? hpeer)
      have hlt := (List.getElem?_eq_some_iff.1 hpeer).1
      rw [harrivals, List.filter_append, hleads, List.map_append, ← List.append_assoc, ← hpayloads]
      by_cases hengine : peer.engine = i
      · have hto : s.world.leadsTo i m.peer = true := by simp [World.leadsTo, hpeer, hengine]
        rw [if_pos ⟨hdelivers, hengine⟩] at hreceive
        refine ⟨{ e with received := m.payload :: e.received }, hy.trans (congrArg some hreceive), ?_⟩
        simp [RecordingEngine.payloads, hstep.leadsTo_eq hlt, hto]
      · have hto : s.world.leadsTo i m.peer = false := by simp [World.leadsTo, hpeer, hengine]
        rw [if_neg fun h => hengine h.2] at hreceive
        refine ⟨e, hy.trans (congrArg some hreceive), ?_⟩
        simp [hstep.leadsTo_eq hlt, hto]

theorem Trace.recorded (htrace : Trace s as s') (hs : s.Sound) {i : Nat} {given : List Bytes}
    (h : s.Recorded i given) (hadded : ∀ a ∈ as, ∀ p ∈ a.added, p.config.onClose = .deliver)
    (has : ∀ a ∈ as, ∀ message, a ≠ .receive i message) : s'.Recorded i given :=
  (htrace.induct (P := fun s => s.Sound ∧ s.Recorded i given)
    (A := fun a => (∀ p ∈ a.added, p.config.onClose = .deliver) ∧ ∀ message, a ≠ .receive i message)
    (fun ha h hstep => ⟨hstep.sound h.1, hstep.recorded h.1 h.2 ha.1 ha.2⟩)
    (fun a ha => ⟨hadded a ha, has a ha⟩) ⟨hs, h⟩).2

theorem Drawn.exists_delay (hd : s.Drawn) {p : Nat} {peer : Peer} (hp : s.world.peers[p]? = some peer)
    {d : Delay} (hsame : ∀ source : ρ, (peer.latency.sample source).1 = d) :
    ∃ d, ∀ x ∈ s.sent, x.peer = p → x.delay = d := by
  refine ⟨peer.recorded d, ?_⟩
  rintro x hx rfl
  obtain ⟨-, origin, source, horigin, hdelay⟩ := hd x hx
  rw [World.origins, List.getElem?_map, hp] at horigin
  obtain rfl : peer.origin = origin := Option.some.inj horigin
  rw [hdelay, ← hsame source]
  rfl

/-- In every state that commands lead to, if no peer drops messages, a recording engine has recorded,
once each, the messages that have arrived at its peers, in the order of the times at which they were
due and then of their sending. Those of a peer whose delays are all the same come in the order in
which they were sent. -/
theorem payloads_in_order {clock : Instant} {engines : List Engine} {commands : List Command}
    {answers : List Answer} (hrun : (start clock engines).run commands = .ok (answers, s))
    (hdeliver : ∀ c ∈ commands, ∀ config, c.config? = some config → config.onClose = .deliver)
    {i : Nat} {e₀ : RecordingEngine} (hi : engines[i]? = some (.recording e₀))
    (hdirect : ∀ message, .receiveAt i message ∉ commands) :
    (∃ e, s.world.engines[i]? = some (.recording e) ∧
      e.payloads = e₀.payloads ++ (s.dueAt i).map fun x => x.payload) ∧
    s.sent.map (fun x => (x.peer, x.payload)) =
      collect sends (start clock engines : Simulation Engine ρ) commands ∧
    s.sent.Pairwise (fun x y => x.clock.nanos ≤ y.clock.nanos ∧ x.number < y.number) ∧
    ∀ (p : Nat) (peer : Peer), s.world.peers[p]? = some peer → peer.engine = i →
      (∃ d, ∀ x ∈ s.sent, x.peer = p → x.delay = d) ∨ peer.config.latency.nanos = 0 ∨
        (peer.config.jitter.isZero = true ∧ ∀ source : ρ, (NormalSource.draw source).1.isFinite = true) →
      (s.dueAt i).filter (fun x => x.peer = p) <+: s.sent.filter fun x => x.peer = p := by
  have hs := sound_of_run hrun
  have hd := drawn_of_run hrun
  refine ⟨?_, map_sent_of_run hrun, hs.pairwise_sent, ?_⟩
  · obtain ⟨as, htrace, -, has⟩ := run_trace (.start clock engines) hrun
    have hadded : ∀ a ∈ as, ∀ p ∈ a.added, p.config.onClose = .deliver := by
      intro a ha p hp
      obtain ⟨c, hc, hwithin⟩ := has a ha
      cases a with
      | addPeers peers => exact hdeliver c hc p.config (hwithin p hp)
      | _ => cases hp
    have hreceive : ∀ a ∈ as, ∀ message, a ≠ .receive i message := by
      rintro a ha message rfl
      obtain ⟨c, hc, rfl⟩ := has _ ha
      exact hdirect message hc
    have hgiven : Recorded i e₀.payloads (start clock engines : Simulation Engine ρ) :=
      { dropsNothing := fun _ hp => nomatch hp
        payloads := ⟨e₀, hi, (List.append_nil _).symm⟩ }
    obtain ⟨e, he, hpayloads⟩ := (htrace.recorded (.start clock engines) hgiven hadded hreceive).payloads
    refine ⟨e, he, ?_⟩
    have hdue := congrArg (List.map Message.payload) (hs.map_dueAt hd i)
    rw [List.map_map, List.map_map] at hdue
    rw [hpayloads]
    exact congrArg _ hdue.symm
  · intro p peer hp hengine hsame
    have hleads : s.world.leadsTo i p = true := by simp [World.leadsTo, hp, hengine]
    obtain ⟨d, hdelay⟩ : ∃ d, ∀ x ∈ s.sent, x.peer = p → x.delay = d := by
      rcases hsame with h | hlatency | ⟨hjitter, hfinite⟩
      · exact h
      · exact hd.exists_delay hp fun source => Latency.delay_of_mean_eq_zero hlatency _
      · exact hd.exists_delay hp fun source =>
          Latency.delay_eq_of_jitter_isZero hjitter (hfinite source) (z := 0) rfl
    exact hs.dueAt_prefix hd hleads hdelay

/-- Three messages, of which the last overtakes the one before it. -/
def overtaking : List Command :=
  [.newPeer 0 jittery none, .send 0 [1], .send 0 [2], .send 0 [3], .time (.runAll 3)]

theorem payloads_in_order_overtaking : ∃ answers s, soloRecorder.run overtaking = .ok (answers, s) ∧
    (s.dueAt 0).map (fun x => x.payload) = [[1], [3], [2]] := by
  obtain ⟨answers, s, x, hrun, hx⟩ := exists_of_run soloRecorder overtaking
    (fun s => (s.world.engines[0]?).filter fun e => e.payloads = [[1], [3], [2]]) (by decide +kernel)
  have hdeliver : ∀ c ∈ overtaking, ∀ config, c.config? = some config → config.onClose = .deliver := by
    simp [overtaking, Command.config?, jittery, Config.default]
  have hdirect : ∀ message, .receiveAt 0 message ∉ overtaking := by simp [overtaking]
  obtain ⟨⟨e, he, hpayloads⟩, -⟩ := payloads_in_order hrun hdeliver (i := 0) rfl hdirect
  obtain ⟨hx, hrecorded⟩ := Option.filter_eq_some_iff.1 hx
  obtain rfl := Option.some.inj (he.symm.trans hx)
  have hvalue : e.payloads = [[1], [3], [2]] := of_decide_eq_true hrecorded
  rw [hvalue] at hpayloads
  exact ⟨answers, s, hrun, hpayloads.symm⟩

end

end Simulation

end VirtualMesh

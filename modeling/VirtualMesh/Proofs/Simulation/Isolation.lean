import VirtualMesh.Proofs.Simulation.Parallel

/-!
# One peer among others

To close a peer is to change two things: what it makes of messages, and whether it goes on calling itself.
Neither can be noticed by another peer, even one that shares its engine or its random source: two runs, one
with the peer closed at some point and one without, differ in its tasks alone.
-/

namespace VirtualMesh

/-- Engines of one kind, with the same links. -/
inductive Engine.Likewise : Engine → Engine → Prop
  | recording {x y : RecordingEngine} : Likewise (.recording x) (.recording y)
  | gossip {x y : GossipEngine} (h : y.links = x.links) : Likewise (.gossip x) (.gossip y)

namespace Engine.Likewise

variable {x y : Engine}

theorem refl (x : Engine) : x.Likewise x := by
  cases x with
  | recording e => exact .recording
  | gossip e => exact .gossip rfl

theorem symm (h : x.Likewise y) : y.Likewise x := by
  cases h with
  | recording => exact .recording
  | gossip h => exact .gossip h.symm

theorem trans {z : Engine} (h : x.Likewise y) (h' : y.Likewise z) : x.Likewise z := by
  cases h with
  | recording => cases h' with | recording => exact .recording
  | gossip h => cases h' with | gossip h' => exact .gossip (h'.trans h)

/-- A message changes neither the kind nor the links. -/
theorem receive (x : Engine) (b : Bytes) : x.Likewise (x.receive b).1 := by
  cases x with
  | recording e => exact .recording
  | gossip e =>
    refine .gossip ?_
    show (e.receive b).1.links = e.links
    unfold GossipEngine.receive
    split <;> rfl

theorem update (x : Engine) : x.Likewise x.update.1 := by
  cases x with
  | recording e => exact .recording
  | gossip e => exact .gossip rfl

theorem propose (h : x.Likewise y) (alive : Nat → Bool) (state : State) :
    Tally (fun _ => True) (fun r r' : Engine × List Outgoing => r.1.Likewise r'.1 ∧
      List.Forall₂ (fun o o' => o'.link = o.link ∧ o'.payload.length = o.payload.length) r.2 r'.2)
      (x.propose alive state) (y.propose alive state) := by
  cases h with
  | recording => exact .ok ⟨.recording, .nil⟩
  | @gossip x y h =>
    simp only [Engine.propose, GossipEngine.propose]
    cases x.decided.height.next with
    | error f => exact .left trivial
    | ok height =>
      cases y.decided.height.next with
      | error f => exact .right trivial
      | ok height' =>
        simp only [h]
        refine .ok ⟨.gossip rfl, List.forall₂_map_left_iff.2 (List.forall₂_map_right_iff.2 ?_)⟩
        refine List.forall₂_same.2 fun l _ => ⟨rfl, ?_⟩
        simp [GossipEngine.encode, BigEndian.length_encode]

end Engine.Likewise

/-- Whether the clock, if it moves at all, moves to an instant and not from task to task. -/
def Command.hasDeadline : Command → Bool
  | .time .runNext => false
  | .time (.runAll _) => false
  | _ => true

/-- What can be seen of a task from outside its payload: for a message its recorded delay and its length. -/
def Task.outline : Task → Option (Delay × Nat)
  | .delivery _ payload delay => some (delay, payload.length)
  | .tick _ => none

def Event.outlineAt (q : Nat) : Event Task Outcome → Option (Instant × Option (Delay × Nat) × Outcome)
  | .submitted .. => none
  | .fired clock e outcome => if e.task.peer = q then some (clock, e.task.outline, outcome) else none

/-- Equal but for one peer, for what engines hold, and for what messages say; their lengths are the same. -/
def Kinship.without (p : Nat) : Kinship Engine Engine where
  shift := 0
  hidden := some p
  payload b b' := b'.length = b.length
  engine := Engine.Likewise
  verdict _ _ := True
  excused _ := True

theorem Kinship.shows_without {p q : Nat} : (without p).shows q = true ↔ q ≠ p := by
  simp [shows, without, ne_comm]

theorem Kinship.lawful_without (p : Nat) : (Kinship.without p).Lawful where
  payload_refl _ := rfl
  payload_length h := h
  receive {x y b b'} h _ := ⟨((Engine.Likewise.receive x b).symm.trans h).trans (.receive y b'), trivial⟩
  update {x y} h := ⟨((Engine.Likewise.update x).symm.trans h).trans (.update y), trivial⟩
  propose h alive state := h.propose alive state
  attach {x y} h links := by
    cases h with
    | recording => exact .none
    | gossip h => exact .some (.gossip (congrArg (· ++ links) h))
  instants hne := absurd rfl hne
  faults _ _ := trivial
  receive_left _ {x y} h b := (Engine.Likewise.receive x b).symm.trans h
  receive_right _ {x y} h b := h.trans (.receive y b)
  update_left _ {x y} h := (Engine.Likewise.update x).symm.trans h
  update_right _ {x y} h := h.trans (.update y)

variable {ε ε' ρ : Type} {k : Kinship ε ε'}

namespace Simulation

/-- Alike, but for clocks: a hidden task may move one clock before the next shown task moves both. -/
structure Abreast (k : Kinship ε ε') (s : Simulation ε ρ) (s' : Simulation ε' ρ) : Prop where
  alike : Machine.Alike k.likeness s s'
  world : World.Alike k s.world s'.world

namespace Abreast

variable {s s₁ : Simulation ε ρ} {s' s₁' : Simulation ε' ρ} {e e' : Entry Task} {rest rest' : List (Entry Task)}

theorem flip (h : Abreast k s s') : Abreast k.flip s' s := ⟨k.flip_likeness ▸ h.alike.flip, h.world.flip⟩

theorem unflip (h : Abreast k.flip s' s) : Abreast k s s' := k.flip_flip ▸ h.flip

variable [Consensus ε] [Consensus ε']

/-- A task of the hidden peer fires in one of the simulations. -/
theorem fire_left (h : Abreast k s s') (hk : k.Lawful) (hq : s.queue = e :: rest)
    (he : Entry.isShown k.likeness e = false) (hfire : s.fire World.handler e rest = .ok s₁) : Abreast k s₁ s' := by
  obtain ⟨r, hr, rfl⟩ := Machine.fire_eq_ok.1 hfire
  obtain ⟨hworld, hhidden⟩ := h.world.handler_left hk he hr
  refine ⟨(h.alike.popped_hidden hq he r.outcome r.world).putAll_hidden hhidden, ?_⟩
  rw [Machine.world_putAll]
  exact hworld

theorem fire_right (h : Abreast k s s') (hk : k.Lawful) (hq' : s'.queue = e' :: rest')
    (he' : Entry.isShown k.likeness e' = false) (hfire' : s'.fire World.handler e' rest' = .ok s₁') :
    Abreast k s s₁' :=
  (h.flip.fire_left hk.flip hq' he' hfire').unflip

/-- A task that is shown fires in both, at its fire time. -/
theorem fire (h : Abreast k s s') (hk : k.Lawful) (hshift : k.shift = 0) (hs : s.Punctual) (hs' : s'.Punctual)
    (hq : s.queue = e :: rest) (hq' : s'.queue = e' :: rest') (he : Entry.isShown k.likeness e = true)
    (he' : Entry.isShown k.likeness e' = true) (hfire : s.fire World.handler e rest = .ok s₁)
    (hfire' : s'.fire World.handler e' rest' = .ok s₁') : Abreast k s₁ s₁' := by
  obtain ⟨hhead, -⟩ := h.alike.queue_cons hq hq' he he'
  have hclock : (max s.clock e.fireAt).Ahead k.shift (max s'.clock e'.fireAt) := by
    rw [hs.max_clock hq, hs'.max_clock hq']
    exact hhead.fireAt
  obtain ⟨r, hr, rfl⟩ := Machine.fire_eq_ok.1 hfire
  obtain ⟨r', hr', rfl⟩ := Machine.fire_eq_ok.1 hfire'
  have hreact := h.world.handler hk hhead.task he hclock (fun hne => absurd hshift hne) fun hne => absurd hshift hne
  rw [hr, hr'] at hreact
  obtain ⟨hworld, houtcome, hput⟩ := hreact.of_ok
  rw [houtcome]
  refine ⟨(h.alike.popped hq hq' he he' hclock r.outcome r.world r'.world).putAll hclock hput, ?_⟩
  rw [Machine.world_putAll, Machine.world_putAll]
  exact hworld

variable [NormalSource ρ]

/-- Two runs to one deadline: whatever is due and shown runs in both, in the same order. -/
theorem settle (h : Abreast k s s') (hk : k.Lawful) (hshift : k.shift = 0) (hs : s.Sound) (hs' : s'.Sound) {t : Instant}
    (hrun : Machine.Settles World.handler t s s₁) (hrun' : Machine.Settles World.handler t s' s₁') :
    Abreast k s₁ s₁' := by
  have hline : ∀ u : Instant, u.Ahead k.shift u := fun u => hshift ▸ .refl u
  induction hrun generalizing s' with
  | @done s hdue =>
    induction hrun' with
    | done => exact h
    | @fire s' s₂' s₁' e' rest' hq' he' hfire' _ ih =>
      cases hshown' : Entry.isShown k.likeness e' with
      | false => exact ih (h.fire_right hk hq' hshown' hfire') ((fire_step hs' hq' hfire').sound hs')
      | true =>
        have hdue' := h.alike.flip.isDue_of_shown (hline t).flip hq' hshown' he'
        rw [hdue] at hdue'
        cases hdue'
  | @fire s s₂ s₁ e rest hq he hfire hrest ih =>
    have hs₂ := (fire_step hs hq hfire).sound hs
    cases hshown : Entry.isShown k.likeness e with
    | false => exact ih (h.fire_left hk hq hshown hfire) hs₂ hs' hrun'
    | true =>
      -- the task waits in the other simulation too, behind hidden ones perhaps
      induction hrun' with
      | @done s' hdue' =>
        have hdue := h.alike.isDue_of_shown (hline t) hq hshown he
        rw [hdue] at hdue'
        cases hdue'
      | @fire s' s₂' s₁' e' rest' hq' he' hfire' hrest' ih' =>
        have hs₂' := (fire_step hs' hq' hfire').sound hs'
        cases hshown' : Entry.isShown k.likeness e' with
        | false => exact ih' @ih (h.fire_right hk hq' hshown' hfire') hs₂'
        | true => exact ih (h.fire hk hshift hs.punctual hs'.punctual hq hq' hshown hshown' hfire hfire') hs₂ hs₂' hrest'

end Abreast

section
variable [NormalSource ρ] [Consensus ε] [Consensus ε'] {s s₁ : Simulation ε ρ} {s' s₁' : Simulation ε' ρ}

/-- Runs to one deadline leave the clocks together. -/
theorem Alike.runUntil (h : Alike k s s') (hk : k.Lawful) (hshift : k.shift = 0) (hs : s.Sound) (hs' : s'.Sound)
    {t : Instant} {n n' : Nat} (hrun : World.dynamics.runUntil t s = .ok (n, s₁))
    (hrun' : World.dynamics.runUntil t s' = .ok (n', s₁')) : Alike k s₁ s₁' := by
  obtain ⟨m, hsettles, rfl⟩ := Machine.settles_of_runUntil hrun
  obtain ⟨m', hsettles', rfl⟩ := Machine.settles_of_runUntil hrun'
  have habreast := Abreast.settle ⟨h.alike, h.world⟩ hk hshift hs hs' hsettles hsettles'
  refine ⟨habreast.alike.moveTo t t, ?_, habreast.world⟩
  have hclock : s.clock.Ahead k.shift s'.clock := h.clock
  rw [Machine.clock_moveTo, Machine.clock_moveTo, hsettles.max_clock, hsettles'.max_clock]
  exact hclock.max (hshift ▸ .refl t)

end

/-! ## What can be told of the other peers -/

/-- The tasks of a peer that fired, in order: when, what for, and with what outcome. -/
def firedFor (s : Simulation ε ρ) (q : Nat) : List (Instant × Option (Delay × Nat) × Outcome) :=
  s.journal.reverse.filterMap (Event.outlineAt q)

/-- What the updates of a peer by a command say. -/
def outcomesFor [Consensus ε] (q : Nat) (s : Simulation ε ρ) (c : Command) : List TickOutcome :=
  ((s.calls c).filter fun x => x.1 = q).map fun x => (s.world.update x.1 x.2).outcome

variable [NormalSource ρ] {p q : Nat} {s s₁ : Simulation Engine ρ} {s' s₁' : Simulation Engine ρ}

omit [NormalSource ρ] in
theorem Alike.firedFor_eq (h : Alike (.without p) s s') (hq : q ≠ p) : s'.firedFor q = s.firedFor q := by
  rw [firedFor, firedFor, List.filterMap_reverse, List.filterMap_reverse]
  refine congrArg List.reverse (h.alike.filterMap_journal (fun {x} hx => ?_) fun {x x'} hx => ?_)
  · have hpeer : x.entry.task.peer = p := not_not.1 fun hne => by
      have hshown : Event.isShown (Kinship.without p).likeness x = true := Kinship.shows_without.2 hne
      rw [hx] at hshown
      cases hshown
    have hnone : Event.outlineAt q x = none := by
      cases x with
      | submitted => rfl
      | fired t e o => exact if_neg fun heq => hq (heq.symm.trans hpeer)
    exact ⟨hnone, hnone⟩
  · cases hx with
    | submitted => rfl
    | @fired t t' e e' o ht he =>
      have htask : e.task.Alike (.without p) e'.task := he.task
      have houtline : e'.task.outline = e.task.outline := by
        generalize e.task = u at htask
        generalize e'.task = u' at htask
        cases htask with
        | delivery hlength => exact congrArg (fun n => some (_, n)) hlength
        | tick => rfl
      simp only [Event.outlineAt, htask.peer_eq, houtline, ht.eq]

omit [NormalSource ρ] in
theorem Alike.outcomesFor_eq (h : Alike (.without p) s s') (hq : q ≠ p) (c : Command) :
    outcomesFor q s' c = outcomesFor q s c := by
  have hcalls : s'.calls c = s.calls c := by
    have hclock : s'.clock = s.clock := h.clock.eq
    cases c with
    | update handle => simp only [calls, hclock, h.world.peerOfHandle_eq]
    | startMesh => simp only [calls, hclock, h.world.mesh]
    | _ => rfl
  have hshown := Kinship.shows_without.2 hq
  rw [outcomesFor, outcomesFor, hcalls]
  refine List.map_congr_left fun x hx => ?_
  obtain rfl : x.1 = q := of_decide_eq_true (List.mem_filter.1 hx).2
  exact (h.world.update (Kinship.lawful_without p) hshown (.refl x.2) (fun hne => absurd rfl hne)
    fun hne => absurd rfl hne).outcome

theorem Alike.apply_without (h : Alike (.without p) s s') (hs : s.Sound) (hs' : s'.Sound) {c : Command}
    (hc : c.hasDeadline = true) {answer answer' : Answer} (happly : s.apply c = .ok (answer, s₁))
    (happly' : s'.apply c = .ok (answer', s₁')) : Alike (.without p) s₁ s₁' := by
  have hk := Kinship.lawful_without p
  have hsteady : ∀ instants, (Kinship.without p).Steady instants := fun _ hne => absurd rfl hne
  by_cases htime : ∃ step, c = .time step
  · obtain ⟨step, rfl⟩ := htime
    simp only [Simulation.apply, bind_eq_ok, attempt_eq_ok, pure_eq_ok] at happly happly'
    obtain ⟨⟨n, s₂⟩, hstep, heq⟩ := happly
    obtain ⟨⟨n', s₂'⟩, hstep', heq'⟩ := happly'
    cases heq
    cases heq'
    cases step with
    | runNext => cases hc
    | runAll => cases hc
    | runUntil t => exact h.runUntil hk rfl hs hs' hstep hstep'
    | advance span =>
      simp only [Dynamics.step, Dynamics.advance, (show s'.clock = s.clock from h.clock.eq)] at hstep hstep'
      cases ht : s.clock.add? span with
      | none => rw [ht] at hstep; cases hstep
      | some t =>
        rw [ht] at hstep hstep'
        exact h.runUntil hk rfl hs hs' hstep hstep'
  · have hreply := h.apply_still hk (fun step heq => htime ⟨step, heq⟩) (fun i error _ {x y} hxy => ?_) (hsteady _)
      (hsteady _)
    · rw [happly, happly'] at hreply
      exact hreply.of_ok.2
    · cases hxy with
      | recording => exact .some .recording
      | gossip => exact .none

theorem Alike.run_without (h : Alike (.without p) s s') (hs : s.Sound) (hs' : s'.Sound) {cs : List Command}
    (hcs : ∀ c ∈ cs, c.hasDeadline = true) {answers answers' : List Answer} (hrun : s.run cs = .ok (answers, s₁))
    (hrun' : s'.run cs = .ok (answers', s₁')) (hq : q ≠ p) :
    Alike (.without p) s₁ s₁' ∧ s'.collect (outcomesFor q) cs = s.collect (outcomesFor q) cs := by
  induction cs generalizing s s' answers answers' with
  | nil =>
    cases hrun
    cases hrun'
    exact ⟨h, rfl⟩
  | cons c cs ih =>
    obtain ⟨hc, hcs⟩ := List.forall_mem_cons.1 hcs
    obtain ⟨answer, s₂, rest, happly, hrest⟩ := run_cons_eq_ok hrun
    obtain ⟨answer', s₂', rest', happly', hrest'⟩ := run_cons_eq_ok hrun'
    obtain ⟨as, htrace, -, -⟩ := apply_actions hs happly
    obtain ⟨as', htrace', -, -⟩ := apply_actions hs' happly'
    obtain ⟨h₁, hcollect⟩ := ih (h.apply_without hs hs' hc happly happly') (htrace.sound hs) (htrace'.sound hs') hcs hrest
      hrest'
    refine ⟨h₁, ?_⟩
    rw [collect, collect, happly, happly', h.outcomesFor_eq hq]
    exact congrArg _ hcollect

omit [NormalSource ρ] in
theorem Alike.refl (hs : s.Sound) (p : Nat) : Alike (.without p) s s where
  alike := by
    refine .refl rfl (fun t => ?_) (hs.ledger.sorted.imp fun hbefore => ?_)
    · cases t with
      | delivery => exact .delivery rfl
      | tick => exact .tick
    · unfold Entry.Before at hbefore
      rw [Instant.le_def]
      omega
  clock := .refl s.clock
  world := ⟨List.forall₂_same.2 fun x _ => .refl x, rfl, rfl, fun _ _ => rfl, rfl, rfl, rfl, rfl, rfl⟩

theorem Sound.close_alike (hs : s.Sound) (p : Nat) : Simulation.Sound (s.withWorld (s.world.close p).2) ∧
    Alike (.without p) s (s.withWorld (s.world.close p).2) := by
  cases hp : s.world.peers[p]? with
  | none =>
    have hsame : (s.world.close p).2 = s.world := by simp only [World.close, hp]
    rw [hsame]
    exact ⟨hs, .refl hs p⟩
  | some peer =>
    have hstep : Step s (.close p) _ := .close hp
    have hself := Alike.refl hs p
    rw [World.close_eq hp]
    refine ⟨hstep.sound hs, hself.withWorld (hself.world.setPeer_right ?_ hp rfl)⟩
    exact Bool.eq_false_iff.2 fun hshown => Kinship.shows_without.1 hshown rfl

/-- To close a peer, and to be done with its ticks and, if it drops them, with its messages, leaves the other
peers as they are: two runs of one script, one of them with the peer `p` closed before it, agree in the clock and in
all that concerns another peer `q`. -/
theorem others_unchanged_by_close {clock : Instant} {engines : List Engine} {before after : List Command}
    {answers₀ answers answers' : List Answer} {s₀ s s' : Simulation Engine ρ} {p q : Nat}
    (hbefore : (start clock engines).run before = .ok (answers₀, s₀)) (hafter : ∀ c ∈ after, c.hasDeadline = true)
    (hrun : s₀.run after = .ok (answers, s))
    (hrun' : Simulation.run (s₀.withWorld (s₀.world.close p).2) after = .ok (answers', s')) (hq : q ≠ p) :
    s'.clock = s.clock ∧ s'.world.peers[q]? = s.world.peers[q]? ∧ s'.firedFor q = s.firedFor q ∧
      Simulation.collect (outcomesFor q) (s₀.withWorld (s₀.world.close p).2) after =
        s₀.collect (outcomesFor q) after := by
  have hs₀ := sound_of_run hbefore
  obtain ⟨hsound, hclosed⟩ := hs₀.close_alike p
  obtain ⟨halike, hcollect⟩ := hclosed.run_without hs₀ hsound hafter hrun hrun' hq
  have hshown := Kinship.shows_without.2 hq
  exact ⟨halike.clock.eq, halike.world.peers q hshown, halike.firedFor_eq hq, hcollect⟩

def couple : Simulation Engine Random.Stream :=
  start default [.recording (.initial ⟨[1]⟩), .gossip (.initial ⟨[2]⟩)]

/-- A peer of the recording engine and one of the gossip engine, which share a source; the second engine has a link to
each. -/
def neighbours : List Command :=
  [.newSource 7, .newPeer 0 { jittery with onClose := .drop } (some 0), .newPeer 1 jittery (some 0),
    .attach 1 [0, 1], .update 0, .update 1, .send 0 [1], .send 1 [2]]

def neighboursLater : List Command :=
  [.proposeAt 1 ⟨[5]⟩, .update 1, .send 0 [3], .time (.advance ((Duration.ofNanos? (5 * 10 ^ 7)).getD .zero))]

/-- The first peer closed or not, the second one receives two messages and ticks four times. -/
theorem others_unchanged_by_close_neighbours : ∃ answers₀ s₀ answers s answers' s',
    couple.run neighbours = .ok (answers₀, s₀) ∧ s₀.run neighboursLater = .ok (answers, s) ∧
      s₀.run (.close 0 :: neighboursLater) = .ok (answers', s') ∧ s'.world.peers[1]? = s.world.peers[1]? ∧
        s'.firedFor 1 = s.firedFor 1 ∧ (s.firedFor 1).length = 6 ∧
          (s.firedFor 0).length = 5 ∧ (s'.firedFor 0).length = 4 := by
  obtain ⟨answers₀, s₀, ⟨⟨answers, s⟩, answers', s'⟩, hbefore, hfind⟩ := exists_of_run couple neighbours
    (fun s₀ => ((s₀.run neighboursLater).toOption.bind fun r =>
      (s₀.run (.close 0 :: neighboursLater)).toOption.map (r, ·)).filter fun r => s₀.world.peerOfHandle 0 = some 0 &&
        (r.1.2.firedFor 1).length = 6 && (r.1.2.firedFor 0).length = 5 && (r.2.2.firedFor 0).length = 4)
    (by decide +kernel)
  obtain ⟨hfound, hcheck⟩ := Option.filter_eq_some_iff.1 hfind
  obtain ⟨r, hrun, hfound⟩ := Option.bind_eq_some_iff.1 hfound
  obtain ⟨r', hrun', heq⟩ := Option.map_eq_some_iff.1 hfound
  cases heq
  simp only [Bool.and_eq_true, decide_eq_true_eq] at hcheck
  obtain ⟨⟨⟨hhandle, hone⟩, hother⟩, hother'⟩ := hcheck
  have hrun := toOption_eq_some.1 hrun
  have hrun' := toOption_eq_some.1 hrun'
  obtain ⟨answer, s₁, rest, hclose, hrest⟩ := run_cons_eq_ok hrun'
  obtain rfl : s₁ = s₀.withWorld (s₀.world.close 0).2 := by
    simp only [apply, hhandle, require, bind, Except.bind, pure, Except.pure] at hclose
    cases hclose
    rfl
  obtain ⟨-, hpeer, hfired, -⟩ := others_unchanged_by_close hbefore (by decide) hrun hrest (p := 0) (q := 1) (by decide)
  exact ⟨answers₀, s₀, answers, s, answers', s', hbefore, hrun, hrun', hpeer, hfired, hone, hother, hother'⟩

end Simulation

end VirtualMesh

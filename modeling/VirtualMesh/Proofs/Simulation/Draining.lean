import VirtualMesh.Proofs.Simulation.Flights
import VirtualMesh.Proofs.Simulation.Updates

/-!
# How a simulation comes to rest

Closing a peer leaves its ticks in the queue, one for each loop that was started, and they go without effect. If
every peer is closed, or held by nothing, the queue drains: a peer that nothing holds goes on ticking only while
messages are under way to it, so the number of tasks left can be told from the time at which the last message
is due.
-/

namespace VirtualMesh

/-- The number of tasks that can come of an entry if no message is due after `last`: a tick is followed by
others for as long, and by one more. -/
def World.tasksLeft {ε ρ : Type} (w : World ε ρ) (last : Int) (e : Entry Task) : Nat :=
  match e.task with
  | .delivery .. => 1
  | .tick p => ((w.origins[p]?).map fun o =>
      (last + o.config.tick.nanos - e.fireAt.nanos).toNat / o.config.tick.nanos).getD 0 + 1

namespace Simulation

variable {ε ρ : Type}

section
variable (s : Simulation ε ρ)

/-- The time at which the last message is due, or the clock. -/
def lastDue : Int := (s.underway.map fun m => m.fireAt.nanos).foldr max s.clock.nanos

def workload (last : Int) : Nat := (s.queue.map (s.world.tasksLeft last)).sum

end

variable [NormalSource ρ] [Consensus ε] {s s' s₀ s₁ : Simulation ε ρ} {a : Action} {as : List Action} {e : Entry Task}

/-! ## Ticks of closed peers -/

theorem ticksFor_le_of_run {clock : Instant} {engines : List ε} {commands : List Command} {answers : List Answer}
    (hrun : (start clock engines).run commands = .ok (answers, s)) (p : Nat) :
    s.ticksFor p ≤ (timesOf p (collect updates (start clock engines : Simulation ε ρ) commands)).length := by
  have hs := sound_of_run hrun
  obtain ⟨tick, -, htick⟩ := hs.world.exists_hasTick p
  have hsplit := ticksFor_add hs.ledger p
  have harmings := ((looping_of_run hrun p) tick htick).length_eq
  have hput := List.length_filterMap_le (·.add? tick)
    (timesOf p (collect updates (start clock engines : Simulation ε ρ) commands) ++ timesOf p s.beats)
  have hbeats : (timesOf p s.beats).length ≤ (timesOf p s.ticked).length :=
    ((s.beats_sublist.filter _).map _).length_le
  rw [List.length_append] at hput
  omega

theorem ticksFor_le_of_rests (hs : s.Sound) {p : Nat} (h : s.world.Rests p) {cs : List Command} {answers : List Answer}
    (hrun : s.run cs = .ok (answers, s')) : s'.ticksFor p ≤ s.ticksFor p := by
  obtain ⟨as, htrace, -, -⟩ := run_trace hs hrun
  obtain ⟨fs, hfired, -⟩ := htrace.fired_since
  have hticked : (timesOf p s.ticked).length ≤ (timesOf p s'.ticked).length := by
    rw [ticked, ticked, hfired, List.filterMap_append, timesOf_append, List.length_append]
    omega
  have hbefore := ticksFor_add hs.ledger p
  have hafter := ticksFor_add (htrace.sound hs).ledger p
  rw [(ticks_of_rests hs h hrun).1] at hafter
  omega

theorem ticksFor_of_isCalm (hs : s.Sound) {c : Command} (hc : c.isCalm = true) {answer : Answer}
    (h : s.apply c = .ok (answer, s')) (p : Nat) : s'.ticksFor p = s.ticksFor p := by
  obtain ⟨as, htrace, -, -⟩ := apply_actions hs h
  cases course_of_apply hs h with
  | calm _ hcalms =>
    obtain ⟨bs, htrace', hbs, -⟩ := hcalms
    obtain ⟨harmings, hticked, -⟩ := htrace'.still hbs
    have hbefore := ticksFor_add hs.ledger p
    have hafter := ticksFor_add (htrace.sound hs).ledger p
    rw [harmings, hticked] at hafter
    omega
  | time | update | updateAt | startMesh => cases hc

omit [NormalSource ρ] [Consensus ε] in
theorem isCalm_of_closes {p : Nat} {c : Command} (h : s.closes p c) : c.isCalm = true := by
  cases c <;> first | rfl | cases h

omit [NormalSource ρ] [Consensus ε] in
theorem isHeld_of_closes {p : Nat} {c : Command} (h : s.closes p c) : s.world.isHeld p = true := by
  cases c with
  | close handle => exact World.isHeld_of_handle h
  | closeMesh =>
    obtain ⟨m, hm, hp⟩ := h
    exact World.isHeld_of_mesh hm hp
  | _ => cases h

/-- A peer that was open is left, when it is closed, with as many ticks in the queue as it was called, and never
gets another one. -/
theorem ticks_after_close {clock : Instant} {engines : List ε} {before after : List Command} {command : Command}
    {answers₀ answers : List Answer} {answer : Answer} {p : Nat}
    (hbefore : (start clock engines).run before = .ok (answers₀, s₀)) (hcloses : s₀.closes p command)
    (hclose : s₀.apply command = .ok (answer, s₁)) (hafter : s₁.run after = .ok (answers, s)) :
    s.ticksFor p ≤ s₁.ticksFor p ∧
    s₁.ticksFor p ≤ (timesOf p (collect updates (start clock engines : Simulation ε ρ) before)).length ∧
    ∀ peer, s₀.world.peers[p]? = some peer → peer.isClosed = false →
      (∀ t ∈ timesOf p (collect calls (start clock engines : Simulation ε ρ) before ++ s₀.beats),
        (t.add? peer.config.tick).isSome = true) →
      s₁.ticksFor p = (timesOf p (collect calls (start clock engines : Simulation ε ρ) before)).length := by
  have hs₀ := sound_of_run hbefore
  have hsame := ticksFor_of_isCalm hs₀ (isCalm_of_closes hcloses) hclose p
  have hclosed := isClosed_of_closes hs₀ hcloses hclose
  obtain ⟨as, htrace, -, -⟩ := apply_actions hs₀ hclose
  obtain ⟨peer₁, hpeer₁, -⟩ := World.exists_of_isClosed hclosed
  have hrests : s₁.world.Rests p := ⟨(List.getElem?_eq_some_iff.1 hpeer₁).1, .inl hclosed⟩
  refine ⟨ticksFor_le_of_rests (htrace.sound hs₀) hrests hafter, ?_, fun peer hp hopen hfits => ?_⟩
  · rw [hsame]
    exact ticksFor_le_of_run hbefore p
  · rw [hsame]
    have halive := World.isAlive_iff.2 (.inl (isHeld_of_closes hcloses))
    exact ticksFor_of_run hbefore hp ((World.isClosed_eq hp).trans hopen) halive hfits

/-- Two calls start two loops. -/
def calledTwice : List Command := [.newPeer 0 jittery none, .update 0, .update 0]

theorem ticks_after_close_calledTwice : ∃ answers₀ s₀ answer s₁ answers s,
    soloRecorder.run calledTwice = .ok (answers₀, s₀) ∧ s₀.apply (.close 0) = .ok (answer, s₁) ∧
      s₁.run [.update 0, .time .runNext] = .ok (answers, s) ∧ s₁.ticksFor 0 = 2 ∧ s.ticksFor 0 ≤ 2 := by
  obtain ⟨answers₀, s₀, ⟨⟨answer, s₁⟩, answers, s⟩, hbefore, hfind⟩ := exists_of_run soloRecorder calledTwice
    (fun s₀ => ((s₀.apply (.close 0)).toOption.bind fun r => (r.2.run [.update 0, .time .runNext]).toOption.map (r, ·)).filter
      fun _ => s₀.world.peerOfHandle 0 = some 0 && (s₀.world.peers[0]?).any fun peer => !peer.isClosed &&
        (timesOf 0 (collect calls soloRecorder calledTwice ++ s₀.beats)).all fun t => (t.add? peer.config.tick).isSome)
    (by decide +kernel)
  obtain ⟨hfound, hcheck⟩ := Option.filter_eq_some_iff.1 hfind
  obtain ⟨r, hclose, hfound⟩ := Option.bind_eq_some_iff.1 hfound
  obtain ⟨r', hafter, heq⟩ := Option.map_eq_some_iff.1 hfound
  cases heq
  rw [Bool.and_eq_true, decide_eq_true_eq] at hcheck
  obtain ⟨hhandle, hpeer⟩ := hcheck
  obtain ⟨peer, hp, hpeer⟩ := (Option.any_eq_true ..).1 hpeer
  simp only [Bool.and_eq_true, Bool.not_eq_true', List.all_eq_true] at hpeer
  obtain ⟨hopen, hfits⟩ := hpeer
  have hcloses : s₀.closes 0 (.close 0) := hhandle
  have hclose := toOption_eq_some.1 hclose
  have hafter := toOption_eq_some.1 hafter
  obtain ⟨hle, -, heq⟩ := ticks_after_close hbefore hcloses hclose hafter
  have htwo : s₁.ticksFor 0 = 2 := (heq peer hp hopen hfits).trans (by decide +kernel)
  exact ⟨answers₀, s₀, answer, s₁, answers, s, hbefore, hclose, hafter, htwo, htwo ▸ hle⟩

/-- One tick may not be all that is left of a closed peer. -/
theorem two_ticks_after_close : ∃ answers s, soloRecorder.run (calledTwice ++ [.close 0]) = .ok (answers, s) ∧
    s.world.isClosed 0 = true ∧ ¬ s.ticksFor 0 ≤ 1 := by
  obtain ⟨answers, s, _, hrun, hfind⟩ := exists_of_run soloRecorder (calledTwice ++ [.close 0])
    (fun s => if s.world.isClosed 0 = true ∧ ¬ s.ticksFor 0 ≤ 1 then some () else none) (by decide +kernel)
  obtain ⟨⟨hclosed, hticks⟩, -⟩ := Option.ite_none_right_eq_some.1 hfind
  exact ⟨answers, s, hrun, hclosed, hticks⟩

/-! ## Draining -/

theorem Step.mem_queue (hstep : Step s (.fire e) s') : e ∈ s.queue := by
  cases hstep with
  | deliver hq | drop hq | tick hq | idle hq => exact hq ▸ List.mem_cons_self

theorem Step.isHeld_of_fire (hstep : Step s (.fire e) s') : s'.world.isHeld = s.world.isHeld := by
  cases hstep with
  | tick =>
    rw [Machine.world_putAll]
    rfl
  | _ => rfl

theorem Step.origins_of_fire (hstep : Step s (.fire e) s') : s'.world.origins = s.world.origins :=
  hstep.origins_eq.trans (List.append_nil _)

theorem Step.length_of_fire (hstep : Step s (.fire e) s') : s'.world.peers.length = s.world.peers.length := by
  rw [← World.length_origins, hstep.origins_of_fire, World.length_origins]

theorem Step.isClosed_of_fire (hstep : Step s (.fire e) s') (p : Nat) : s'.world.isClosed p = s.world.isClosed p := by
  cases hstep with
  | deliver _ _ hp => exact World.isClosed_setPeer_of_eq hp rfl
  | drop _ _ hp => exact World.isClosed_setPeer_of_eq hp rfl
  | tick =>
    rw [Machine.world_putAll]
    rfl
  | idle => rfl

theorem Step.isAlive_of_fire (hstep : Step s (.fire e) s') {p : Nat} (halive : s'.world.isAlive p = true) :
    s.world.isAlive p = true := by
  rcases World.isAlive_iff.1 halive with hheld | ⟨peer, hp, -⟩
  · rw [hstep.isHeld_of_fire] at hheld
    exact World.isAlive_iff.2 (.inl hheld)
  · have hlt := (List.getElem?_eq_some_iff.1 hp).1
    rw [hstep.length_of_fire] at hlt
    exact (hstep.fades trivial).isAlive p hlt halive

/-- A task leaves the queue without it, and a tick of a peer that is open and alive puts the next one there, if it has
an instant. -/
theorem Step.queue_of_fire (hs : s.Sound) (hstep : Step s (.fire e) s') : ∃ rest, s.queue = e :: rest ∧
    (s'.queue = rest ∧ (∀ p peer, e.task = .tick p → s.world.peers[p]? = some peer → peer.isClosed = false →
        s.world.isAlive p = true → e.fireAt.add? peer.config.tick = none) ∨
      ∃ p peer u, e.task = .tick p ∧ s.world.peers[p]? = some peer ∧ peer.isClosed = false ∧
        s.world.isAlive p = true ∧ e.fireAt.add? peer.config.tick = some u ∧
          s'.queue.Perm (⟨u, s.submissions, .tick p⟩ :: rest)) := by
  cases hstep with
  | deliver hq ht | drop hq ht => exact ⟨_, hq, .inl ⟨rfl, fun _ _ ht' => nomatch ht.symm.trans ht'⟩⟩
  | @tick _ rest p peer x hq ht halive hp hopen hx =>
    refine ⟨rest, hq, ?_⟩
    rcases arm_cases (s.popped e rest (.ticked .armed) (s.world.setEngine peer.engine (Consensus.update x).1))
      peer.config.tick p with ⟨hnone, heq⟩ | ⟨u, hu, heq⟩
    · rw [Machine.clock_popped] at hnone heq
      rw [hs.punctual.max_clock hq] at hnone
      rw [heq]
      refine .inl ⟨rfl, fun q peer' ht' hp' _ _ => ?_⟩
      cases ht.symm.trans ht'
      cases hp.symm.trans hp'
      exact hnone
    · rw [Machine.clock_popped] at hu heq
      rw [hs.punctual.max_clock hq] at hu
      rw [heq]
      exact .inr ⟨p, peer, u, ht, hp, hopen, halive, hu, Machine.insert_perm _ _⟩
  | @idle _ rest p outcome hq ht ho =>
    refine ⟨rest, hq, .inl ⟨rfl, fun q peer ht' hp hopen halive => ?_⟩⟩
    cases ht.symm.trans ht'
    rcases ho with ⟨-, hdead⟩ | ⟨-, -, peer', hp', hclosed⟩
    · rw [halive] at hdead
      cases hdead
    · cases hp.symm.trans hp'
      rw [hopen] at hclosed
      cases hclosed

omit [NormalSource ρ] [Consensus ε] in
theorem fitsBy_of_not_due (hs : s.Sound) {t : Instant} (hdue : s.isDue t = false) : s.FitsBy t := by
  have hnone : s.underway.filter (fun m => m.fireAt ≤ t) = [] := by
    refine List.filter_eq_nil_iff.2 fun m hm => ?_
    obtain ⟨e, he, hmessage⟩ := List.mem_filterMap.1 hm
    obtain rfl := Message.of?_eq_some.1 hmessage
    simpa using hs.ledger.not_due hdue he
  rw [FitsBy, hnone]
  exact s.world.takes_nil

/-- What each task keeps while it lowers a measure, the last one leaves when nothing is due, unless a count
overflows on the way. -/
theorem runWhile_cases {P : Nat → Simulation ε ρ → Prop} {μ : Simulation ε ρ → Nat} {t : Instant}
    (hsettled : ∀ {s}, μ s = 0 → s.isDue t = false)
    (hstep : ∀ {n s e s'}, s.Sound → P n s → e.fireAt ≤ t → Step s (.fire e) s' → P (n + 1) s' ∧ μ s' < μ s) :
    ∀ {limit n : Nat} {s : Simulation ε ρ}, s.Sound → P n s → μ s ≤ limit →
      s.FitsBy t ∧ (∃ (k : Nat) (s' : Simulation ε ρ),
        s.runWhile World.handler (fun u => u ≤ t) limit n = .ok (k, s') ∧ s'.isDue t = false ∧ P k s' ∧ s'.Sound) ∨
      ¬ s.FitsBy t ∧ s.runWhile World.handler (fun u => u ≤ t) limit n = .error .countOverflow := by
  intro limit
  -- the measure is within the limit, and both go down with each task
  induction limit with
  | zero =>
    intro n s hs hP hμ
    have hdue := hsettled (Nat.le_zero.1 hμ)
    exact .inl ⟨fitsBy_of_not_due hs hdue, n, s, rfl, hdue, hP, hs⟩
  | succ limit ih =>
    intro n s hs hP hμ
    cases hdue : s.isDue t with
    | false =>
      refine .inl ⟨fitsBy_of_not_due hs hdue, n, s, ?_, hdue, hP, hs⟩
      simp only [Machine.runWhile]
      cases hq : s.queue with
      | nil => rfl
      | cons e rest =>
        simp only [Machine.isDue, hq] at hdue
        simp only [hdue, Bool.false_eq_true, if_false]
    | true =>
      obtain ⟨e, rest, hq, hle⟩ : ∃ e rest, s.queue = e :: rest ∧ e.fireAt ≤ t := by
        cases hq : s.queue with
        | nil => simp only [Machine.isDue, hq, Bool.false_eq_true] at hdue
        | cons e rest =>
          simp only [Machine.isDue, hq, decide_eq_true_eq] at hdue
          exact ⟨e, rest, rfl, hdue⟩
      simp only [Machine.runWhile, hq, hle, decide_true, if_true]
      rcases fire_cases hs hq hle with ⟨s₁, hfire⟩ | ⟨hover, herror⟩
      · have hfired := fire_step hs hq hfire
        obtain ⟨hP₁, hlt⟩ := hstep hs hP hle hfired
        rw [hfire, hfired.fitsBy_iff hle]
        exact ih (hfired.sound hs) hP₁ (by omega)
      · rw [herror]
        exact .inr ⟨hover, rfl⟩

theorem apply_runAll_cases {P : Nat → Simulation ε ρ → Prop} {μ : Simulation ε ρ → Nat}
    (hempty : ∀ {s}, μ s = 0 → s.queue = [])
    (hstep : ∀ {n s e s'}, s.Sound → P n s → Step s (.fire e) s' → P (n + 1) s' ∧ μ s' < μ s)
    (hs : s.Sound) (hP : P 0 s) {limit : Nat} (hμ : μ s ≤ limit) :
    s.Fits ∧ (∃ n s', s.apply (.time (.runAll limit)) = .ok (.count n, s') ∧ s'.queue = [] ∧ P n s') ∨
      ¬ s.Fits ∧ s.apply (.time (.runAll limit)) = .error (.fault .countOverflow) := by
  -- a run of all tasks is a run to the end of time
  have hall : (fun _ => true : Instant → Bool) = fun u => decide (u ≤ .last) := by
    funext u
    exact (decide_eq_true u.le_last).symm
  have hsettled : ∀ {s : Simulation ε ρ}, μ s = 0 → s.isDue .last = false := by
    intro s hμ
    rw [Machine.isDue, hempty hμ]
  rcases runWhile_cases hsettled (fun hs hP _ hfired => hstep hs hP hfired) hs hP hμ with
    ⟨hfits, n, s', hrun, hdue, hP', hs'⟩ | ⟨hover, herror⟩
  · have hq : s'.queue = [] :=
      List.eq_nil_iff_forall_not_mem.2 fun e he => hs'.ledger.not_due hdue he e.fireAt.le_last
    refine .inl ⟨fitsBy_last.1 hfits, n, s', ?_, hq, hP'⟩
    simp only [apply, Dynamics.step, Machine.runAll, World.dynamics, hall, hrun]
    rfl
  · refine .inr ⟨fun hfits => hover (fitsBy_last.2 hfits), ?_⟩
    simp only [apply, Dynamics.step, Machine.runAll, World.dynamics, hall, herror]
    rfl

/-- What is true while the simulation `s₀` drains, with no message due after `last`. -/
structure Draining (s₀ : Simulation ε ρ) (last : Int) (s : Simulation ε ρ) : Prop where
  flights : s.Flights
  held : s.world.isHeld = s₀.world.isHeld
  resting : ∀ p, p < s.world.peers.length → s.world.isClosed p = true ∨ s.world.isHeld p = false
  late : ∀ m ∈ s.underway, m.fireAt.nanos ≤ last

theorem Step.draining {last : Int} (hs : s.Sound) (h : s₀.Draining last s) (hstep : Step s (.fire e) s') :
    s₀.Draining last s' where
  flights := hstep.flights hs h.flights
  held := hstep.isHeld_of_fire.trans h.held
  resting p hp := by
    rw [hstep.length_of_fire] at hp
    rw [hstep.isHeld_of_fire]
    exact (h.resting p hp).imp_left hstep.isClosed
  late m hm := h.late m (hstep.underway_of_fire.mem_iff.2 (List.mem_append_right _ hm))

omit [NormalSource ρ] [Consensus ε] in
/-- A tick that updates a peer which nothing holds fires before a message does. -/
theorem Draining.fireAt_le {last : Int} (hs : s.Sound) (h : s₀.Draining last s) {rest : List (Entry Task)} {p : Nat}
    {peer : Peer} (hq : s.queue = e :: rest) (ht : e.task = .tick p) (halive : s.world.isAlive p = true)
    (hp : s.world.peers[p]? = some peer) (hopen : peer.isClosed = false) : e.fireAt.nanos ≤ last := by
  have hunheld : s.world.isHeld p = false := by
    refine (h.resting p (List.getElem?_eq_some_iff.1 hp).1).resolve_left ?_
    rw [World.isClosed_eq hp, hopen]
    exact Bool.false_ne_true
  obtain ⟨m, hm, -⟩ : ∃ m ∈ s.underway, decide (m.peer = p) = true := by
    rcases World.isAlive_iff.1 halive with hheld | ⟨peer', hp', hflight⟩
    · rw [hunheld] at hheld
      cases hheld
    · rw [h.flights p peer' hp'] at hflight
      exact List.countP_pos_iff.1 hflight
  obtain ⟨x, hx, hmessage⟩ := List.mem_filterMap.1 hm
  obtain rfl := Message.of?_eq_some.1 hmessage
  have hbefore := hs.ledger.sorted
  have hlast := h.late m hm
  rw [hq] at hx hbefore
  rcases List.mem_cons.1 hx with rfl | hx
  · cases ht
  · have hex := (List.pairwise_cons.1 hbefore).1 _ hx
    unfold Entry.Before at hex
    simp only at hex
    omega

end Simulation

namespace World

variable {ε ρ : Type} {w : World ε ρ} {last : Int} {e f : Entry Task} {p : Nat} {peer : Peer}

theorem tasksLeft_pos (w : World ε ρ) (last : Int) (e : Entry Task) : 0 < w.tasksLeft last e := by
  unfold tasksLeft
  split <;> omega

theorem tasksLeft_tick (hp : w.peers[p]? = some peer) (ht : e.task = .tick p) : w.tasksLeft last e =
    (last + peer.config.tick.nanos - e.fireAt.nanos).toNat / peer.config.tick.nanos + 1 := by
  rw [tasksLeft, ht]
  simp only [origin_of_peer hp, Option.map_some, Option.getD_some]
  rfl

theorem tasksLeft_again (hp : w.peers[p]? = some peer) (hpos : 0 < peer.config.tick.nanos) (ht : e.task = .tick p)
    (ht' : f.task = .tick p) (hlast : e.fireAt.nanos ≤ last)
    (hat : f.fireAt.nanos = e.fireAt.nanos + peer.config.tick.nanos) :
    w.tasksLeft last f + 1 = w.tasksLeft last e := by
  rw [tasksLeft_tick hp ht, tasksLeft_tick hp ht', hat,
    show last + peer.config.tick.nanos - (e.fireAt.nanos + peer.config.tick.nanos) = last - e.fireAt.nanos by omega,
    show (last + peer.config.tick.nanos - e.fireAt.nanos).toNat =
      (last - e.fireAt.nanos).toNat + peer.config.tick.nanos by omega, Nat.add_div_right _ hpos]

end World

namespace Simulation

variable {ε ρ : Type} [NormalSource ρ] [Consensus ε] {s s' s₀ : Simulation ε ρ} {e : Entry Task}

omit [NormalSource ρ] [Consensus ε] in
theorem workload_of_queue {last : Int} {rest : List (Entry Task)} (hq : s.queue = e :: rest) :
    s.workload last = s.world.tasksLeft last e + (rest.map (s.world.tasksLeft last)).sum := by
  rw [workload, hq, List.map_cons, List.sum_cons]

omit [NormalSource ρ] [Consensus ε] in
theorem queue_of_workload {last : Int} (h : s.workload last = 0) : s.queue = [] := by
  cases hq : s.queue with
  | nil => rfl
  | cons e rest =>
    have hpos := s.world.tasksLeft_pos last e
    rw [workload_of_queue hq] at h
    omega

theorem Step.workload_lt {last : Int} (hs : s.Sound) (h : s₀.Draining last s) (hstep : Step s (.fire e) s') :
    s'.workload last < s.workload last := by
  have hleft : s'.world.tasksLeft last = s.world.tasksLeft last := by
    funext x
    rw [World.tasksLeft, World.tasksLeft, hstep.origins_of_fire]
  have hpos := s.world.tasksLeft_pos last e
  unfold workload
  rw [hleft]
  obtain ⟨rest, hq, ⟨hrest, -⟩ | ⟨p, peer, u, ht, hp, hopen, halive, hu, hagain⟩⟩ := hstep.queue_of_fire hs
  · rw [hrest, hq, List.map_cons, List.sum_cons]
    exact Nat.lt_add_of_pos_left hpos
  · -- the tick comes again an interval later, with one task less to come of it
    have hleft := World.tasksLeft_again (f := ⟨u, s.submissions, .tick p⟩) hp
      (Config.tick_pos (hs.world.valid peer (List.mem_of_getElem? hp))) ht rfl (h.fireAt_le hs hq ht halive hp hopen)
      (Instant.nanos_of_add? hu)
    rw [(hagain.map _).sum_eq, hq, List.map_cons, List.sum_cons, List.map_cons, List.sum_cons]
    omega

/-- What is true of `s`, that `n` tasks have led to from `s₀`, if all peers are closed. -/
structure Stopped (s₀ : Simulation ε ρ) (n : Nat) (s : Simulation ε ρ) : Prop where
  closed : ∀ p, p < s.world.peers.length → s.world.isClosed p = true
  ran : n + s.pending = s₀.pending
  beats : s.beats = s₀.beats
  updates : ∀ count : ε → Nat, Consensus.Counts count → ∀ (i : Nat) (x : ε), s₀.world.engines[i]? = some x →
    ∃ y, s.world.engines[i]? = some y ∧ count y = count x

theorem Step.stopped {n : Nat} (hs : s.Sound) (h : s₀.Stopped n s) (hstep : Step s (.fire e) s') :
    s₀.Stopped (n + 1) s' ∧ s'.pending + 1 = s.pending := by
  have hopen : ∀ {p peer}, s.world.peers[p]? = some peer → s.world.isClosed p ≠ false := by
    intro p peer hp
    rw [h.closed p (List.getElem?_eq_some_iff.1 hp).1]
    exact Bool.noConfusion
  have hpending : s'.pending + 1 = s.pending := by
    unfold Machine.pending
    cases hstep with
    | deliver hq | drop hq | idle hq => rw [hq]; rfl
    | tick _ _ _ hp hopen' => exact absurd ((World.isClosed_eq hp).trans hopen') (hopen hp)
  have hbeats : s'.beats = s.beats := by
    cases hstep.turn hs with
    | still _ _ _ _ hbeats => exact hbeats
    | beat _ hp hopen' => exact absurd hopen' (hopen hp)
    | idle _ _ _ _ _ hbeats => exact hbeats
  refine ⟨⟨?_, ?_, hbeats.trans h.beats, ?_⟩, hpending⟩
  · intro p hp
    rw [hstep.length_of_fire] at hp
    exact hstep.isClosed (h.closed p hp)
  · have hran := h.ran
    omega
  · intro count hcount i x hx
    obtain ⟨y, hy, hcounty⟩ := h.updates count hcount i x hx
    obtain ⟨z, hz, hcountz⟩ := hstep.count_engine hcount (fun p _ => Eq.refl (s.world.leadsTo i p)) hy
    rw [hbeats] at hcountz
    simp only [Action.updated?, Action.direct?, Option.toList_none, List.countP_nil, List.count_nil] at hcountz
    exact ⟨z, hz, by omega⟩

omit [NormalSource ρ] [Consensus ε] in
theorem le_lastDue {m : Message} (hm : m ∈ s.underway) : m.fireAt.nanos ≤ s.lastDue := by
  have hle : ∀ {l : List Int} {x : Int}, x ∈ l → x ≤ l.foldr max s.clock.nanos := by
    intro l x hx
    induction l with
    | nil => cases hx
    | cons y l ih =>
      rw [List.foldr_cons]
      rcases List.mem_cons.1 hx with rfl | hx
      · exact Int.le_max_left _ _
      · exact Int.le_trans (ih hx) (Int.le_max_right _ _)
  exact hle (List.mem_map_of_mem hm)

omit [NormalSource ρ] [Consensus ε] in
theorem Draining.isAlive_eq {last : Int} (h : s₀.Draining last s) (hq : s.queue = []) {p : Nat}
    (hp : s₀.world.isHeld p = false) : s.world.isAlive p = false := by
  rw [Bool.eq_false_iff]
  intro halive
  rcases World.isAlive_iff.1 halive with hheld | ⟨peer, hpeer, hflight⟩
  · rw [h.held, hp] at hheld
    cases hheld
  · rw [h.flights p peer hpeer, underway, hq] at hflight
    cases hflight

/-- If every peer is closed, or held by nothing, then running all tasks empties the queue within the steps that
`workload` tells, and the peers that nothing holds are gone. If every peer is closed, each task in the queue runs,
no other does, and no engine is updated. Only an overflow of the counts, which is certain beforehand, stops this. -/
theorem queue_drains {clock : Instant} {engines : List ε} {commands : List Command} {answers : List Answer}
    (hrun : (start clock engines).run commands = .ok (answers, s))
    (hresting : ∀ p, p < s.world.peers.length → s.world.isClosed p = true ∨ s.world.isHeld p = false) :
    (s.Fits → ∀ limit, s.workload s.lastDue ≤ limit → ∃ n s',
      s.apply (.time (.runAll limit)) = .ok (.count n, s') ∧ s'.queue = [] ∧
        ∀ p, s.world.isHeld p = false → s'.world.isAlive p = false) ∧
    (s.Fits → (∀ p, p < s.world.peers.length → s.world.isClosed p = true) → ∀ limit, s.pending ≤ limit → ∃ s',
      s.apply (.time (.runAll limit)) = .ok (.count s.pending, s') ∧ s'.queue = [] ∧
        (∀ p, s.world.isHeld p = false → s'.world.isAlive p = false) ∧ s'.beats = s.beats ∧
          ∀ count : ε → Nat, Consensus.Counts count → ∀ (i : Nat) (x : ε), s.world.engines[i]? = some x →
            ∃ y, s'.world.engines[i]? = some y ∧ count y = count x) ∧
    (¬ s.Fits → ∀ limit, s.workload s.lastDue ≤ limit →
      s.apply (.time (.runAll limit)) = .error (.fault .countOverflow)) := by
  have hs := sound_of_run hrun
  have hdraining : s.Draining s.lastDue s := ⟨flights_of_run hrun, rfl, hresting, fun m hm => le_lastDue hm⟩
  have hcases : ∀ limit, s.workload s.lastDue ≤ limit → _ := fun limit hle =>
    apply_runAll_cases (P := fun _ s' => s.Draining s.lastDue s') queue_of_workload
      (fun hs h hstep => ⟨hstep.draining hs h, hstep.workload_lt hs h⟩) hs hdraining hle
  refine ⟨?_, ?_, ?_⟩
  · intro hfits limit hle
    rcases hcases limit hle with ⟨-, n, s', happly, hq, hdrained⟩ | ⟨hover, -⟩
    · exact ⟨n, s', happly, hq, fun p hp => hdrained.isAlive_eq hq hp⟩
    · exact absurd hfits hover
  · intro hfits hclosed limit hle
    have hstopped : s.Stopped 0 s := ⟨hclosed, Nat.zero_add _, rfl, fun count _ i x hx => ⟨x, hx, rfl⟩⟩
    rcases apply_runAll_cases (P := fun n s' => s.Draining s.lastDue s' ∧ s.Stopped n s') (μ := Machine.pending)
      List.length_eq_zero_iff.1 (fun hs h hstep => ⟨⟨hstep.draining hs h.1, (hstep.stopped hs h.2).1⟩,
        Nat.lt_of_succ_le (hstep.stopped hs h.2).2.le⟩) hs ⟨hdraining, hstopped⟩ hle with
      ⟨-, n, s', happly, hq, hdrained, hstopped'⟩ | ⟨hover, -⟩
    · have hran : n = s.pending := by
        have hran := hstopped'.ran
        rwa [Machine.pending, hq] at hran
      subst hran
      exact ⟨s', happly, hq, fun p hp => hdrained.isAlive_eq hq hp, hstopped'.beats, hstopped'.updates⟩
    · exact absurd hfits hover
  · intro hover limit hle
    rcases hcases limit hle with ⟨hfits, -⟩ | ⟨-, herror⟩
    · exact absurd hfits hover
    · exact herror

/-- A peer that was let go ticks until its last message has arrived, and a closed one has a tick left. -/
def released : List Command :=
  let slow := { jittery with latency := (Duration.ofNanos? (50 * 10 ^ 6)).getD .zero }
  [.newPeer 0 slow none, .newPeer 0 slow none, .update 0, .send 0 [1], .send 0 [2], .dropPeer 0, .update 1, .close 1]

/-- All is closed with a tick and a message in the queue. -/
def shutDown : List Command := [.newPeer 0 jittery none, .update 0, .send 0 [1], .close 0]

theorem queue_drains_released :
    (∃ answers s n s', soloRecorder.run released = .ok (answers, s) ∧
      s.apply (.time (.runAll 8)) = .ok (.count n, s') ∧ s'.queue = [] ∧ s'.world.isAlive 0 = false) ∧
    ∃ answers s s', soloRecorder.run shutDown = .ok (answers, s) ∧
      s.apply (.time (.runAll 2)) = .ok (.count 2, s') ∧ s'.queue = [] ∧ s'.beats = s.beats := by
  refine ⟨?_, ?_⟩
  · obtain ⟨answers, s, _, hrun, hfind⟩ := exists_of_run soloRecorder released
      (fun s => if (∀ p, p < s.world.peers.length → s.world.isClosed p = true ∨ s.world.isHeld p = false) ∧ s.Fits ∧
        s.workload s.lastDue = 8 ∧ s.world.isHeld 0 = false then some () else none) (by decide +kernel)
    obtain ⟨⟨hresting, hfits, hworkload, hunheld⟩, -⟩ := Option.ite_none_right_eq_some.1 hfind
    obtain ⟨n, s', happly, hq, hdead⟩ := (queue_drains hrun hresting).1 hfits 8 hworkload.le
    exact ⟨answers, s, n, s', hrun, happly, hq, hdead 0 hunheld⟩
  · obtain ⟨answers, s, _, hrun, hfind⟩ := exists_of_run soloRecorder shutDown
      (fun s => if (∀ p, p < s.world.peers.length → s.world.isClosed p = true) ∧ s.Fits ∧ s.pending = 2 then some ()
        else none) (by decide +kernel)
    obtain ⟨⟨hclosed, hfits, hpending⟩, -⟩ := Option.ite_none_right_eq_some.1 hfind
    obtain ⟨s', happly, hq, -, hbeats, -⟩ :=
      (queue_drains hrun fun p hp => .inl (hclosed p hp)).2.1 hfits hclosed 2 hpending.le
    exact ⟨answers, s, s', hrun, hpending ▸ happly, hq, hbeats⟩

end Simulation

end VirtualMesh

import VirtualMesh.Proofs.Scheduler.Picking
import VirtualMesh.Proofs.Simulation.Draining
import VirtualMesh.Proofs.Simulation.Statistics

/-!
# Runs to a deadline

A tick that fires puts the next one into the queue in the middle of a run, so the queue need not get shorter. What
gets less is the number of tasks that can come of it up to the deadline: one of a message, and of a tick one for each
interval that fits in before the deadline, and one more. A task takes at least one off this number, and just one
unless it is a tick of a peer that is closed or gone. So a run to a deadline comes to an end, after this many tasks
at most.
-/

namespace VirtualMesh

namespace World

variable {ε ρ : Type} {w w' : World ε ρ} {t u : Instant} {p : Nat} {peer : Peer} {e : Entry Task}
  {q q' : List (Entry Task)}

/-- The nanoseconds from one tick of a peer to the next. -/
def interval (w : World ε ρ) (p : Nat) : Nat := ((w.peers[p]?).map fun peer => peer.config.tick.nanos).getD 0

theorem interval_of_origins (h : w'.origins = w.origins) : w'.interval p = w.interval p := by
  have horigins : ∀ w : World ε ρ, w.interval p = ((w.origins[p]?).map fun o => o.config.tick.nanos).getD 0 := by
    intro w
    rw [interval, origins, List.getElem?_map, Option.map_map]
    rfl
  rw [horigins, horigins, h]

theorem share_tick (w : World ε ρ) (t u : Instant) (p : Nat) :
    w.share t u (.tick p) = (t.since u).toNat / w.interval p + 1 := by
  rw [share, interval]
  cases w.peers[p]? with
  | none => simp
  | some peer => rfl

theorem share_of_peer (hp : w.peers[p]? = some peer) :
    w.share t u (.tick p) = rounds peer.config.tick t u + 1 := by
  rw [share_tick, interval, hp]
  rfl

theorem share_pos (w : World ε ρ) (t u : Instant) (task : Task) : 0 < w.share t u task := by
  cases task with
  | delivery => exact Nat.one_pos
  | tick p =>
    rw [share_tick]
    exact Nat.succ_pos _

theorem share_of_origins (h : w'.origins = w.origins) : w'.share = w.share := by
  funext t u task
  cases task with
  | delivery => rfl
  | tick p => rw [share_tick, share_tick, interval_of_origins h]

/-- The number of tasks that can come of these entries up to `t`. -/
def load (w : World ε ρ) (t : Instant) (q : List (Entry Task)) : Nat :=
  (q.map fun e => if e.fireAt ≤ t then w.share t e.fireAt e.task else 0).sum

theorem load_cons (w : World ε ρ) (t : Instant) (e : Entry Task) (q : List (Entry Task)) :
    w.load t (e :: q) = (if e.fireAt ≤ t then w.share t e.fireAt e.task else 0) + w.load t q := List.sum_cons

theorem load_perm (h : q.Perm q') : w.load t q = w.load t q' := (h.map _).sum_eq

theorem load_of_origins (h : w'.origins = w.origins) : w'.load t q = w.load t q := by
  rw [load, load, share_of_origins h]

theorem load_eq_zero (h : ∀ e ∈ q, ¬ e.fireAt ≤ t) : w.load t q = 0 := by
  induction q with
  | nil => rfl
  | cons e q ih =>
    obtain ⟨he, hq⟩ := List.forall_mem_cons.1 h
    rw [load_cons, if_neg he, ih hq]

theorem allowance_eq_load (t : Instant) (s : Simulation ε ρ) : allowance t s = s.world.load t s.queue := by
  unfold allowance
  induction s.queue with
  | nil => rfl
  | cons e q ih =>
    rw [load_cons, List.filter_cons]
    by_cases he : e.fireAt ≤ t
    · simp only [he, decide_true, if_true, List.map_cons, List.foldr_cons, ih]
    · simp only [he, decide_false, Bool.false_eq_true, if_false, ih, Nat.zero_add]

end World

namespace Simulation

variable {ε ρ : Type}

/-- The messages due at `t`, and for each tick that is due the intervals from it to `t`, and one more. -/
def tasksBy (s : Simulation ε ρ) (t : Instant) : Nat :=
  (s.underway.filter fun m => m.fireAt ≤ t).length +
    ((s.pendingTicks.filter fun x => x.2 ≤ t).map fun x => (t.since x.2).toNat / s.world.interval x.1 + 1).sum

theorem allowance_eq_tasksBy (t : Instant) (s : Simulation ε ρ) : World.allowance t s = s.tasksBy t := by
  rw [World.allowance_eq_load, tasksBy, underway, pendingTicks]
  induction s.queue with
  | nil => rfl
  | cons e q ih =>
    rw [World.load_cons, ih]
    cases ht : e.task with
    | delivery p payload delay =>
      have hm : Message.of? e = some ⟨e.number, e.fireAt, p, payload, delay⟩ := by rw [Message.of?, ht]
      have hnone : e.tick? = none := by rw [Entry.tick?, ht]; rfl
      rw [List.filterMap_cons_some hm, List.filterMap_cons_none hnone, List.filter_cons]
      by_cases hle : e.fireAt ≤ t
      · simp only [hle, decide_true, if_true, World.share, List.length_cons]
        omega
      · simp only [hle, decide_false, Bool.false_eq_true, if_false]
        omega
    | tick p =>
      have hnone : Message.of? e = none := by rw [Message.of?, ht]
      have htick : e.tick? = some (p, e.fireAt) := by rw [Entry.tick?, ht]; rfl
      rw [List.filterMap_cons_none hnone, List.filterMap_cons_some htick, List.filter_cons]
      by_cases hle : e.fireAt ≤ t
      · simp only [hle, decide_true, if_true, World.share_tick, List.map_cons, List.sum_cons]
        omega
      · simp only [hle, decide_false, Bool.false_eq_true, if_false]
        omega

/-! ## Room for what was sent -/

/-- The sizes of the payloads that are sent through a peer. -/
def sizesFor (p : Nat) (messages : List (Nat × Bytes)) : List Nat :=
  (messages.filter fun m => m.1 = p).map fun m => m.2.length

/-- What was sent through a peer has arrived or is under way. -/
theorem sizes_perm {s : Simulation ε ρ} (h : s.Ledger) (p : Nat) : ((s.arrivalsAt p).map (fun x => x.payload.length) ++
    (s.underway.filter fun m => m.peer = p).map fun m => m.payload.length).Perm
      (sizesFor p (s.sent.map fun x => (x.peer, x.payload))) := by
  have hperm := ((messages_perm h).filter fun m => decide (m.peer = p)).map fun m => m.payload.length
  rw [List.filter_append, List.map_append, List.filter_map, List.map_map, List.filter_map, List.map_map] at hperm
  rw [sizesFor, List.filter_map, List.map_map]
  exact hperm

theorem Counted.fits {s : Simulation ε ρ} (hs : s.Sound) (h : s.Counted)
    (hsent : ∀ p, (sizesFor p (s.sent.map fun x => (x.peer, x.payload))).length < 2 ^ 64 ∧
      (sizesFor p (s.sent.map fun x => (x.peer, x.payload))).sum < 2 ^ 64) : s.Fits := by
  refine World.takes_iff.2 fun p peer hp => ?_
  obtain ⟨hlength, hbytes⟩ := hsent p
  have hperm := sizes_perm hs.ledger p
  have hdescribes := h.stats p peer.stats (World.stats_of_peer hp)
  have hall := s.length_arrivalsAt p
  have hdelivered : ((s.deliveredAt p).map fun x => x.payload.length).sum ≤
      ((s.arrivalsAt p).map fun x => x.payload.length).sum :=
    (List.filter_sublist.map _).sum_le_sum fun _ _ => Nat.zero_le _
  have hmessages := hdescribes.messages
  have hcount := hdescribes.bytes
  have hdropped := hdescribes.dropped
  rw [← hperm.length_eq, List.length_append, List.length_map, List.length_map] at hlength
  rw [← hperm.sum_eq, List.sum_append] at hbytes
  rw [List.length_map] at hmessages
  rw [List.map_map] at hcount
  change peer.stats.bytes.toNat = ((s.deliveredAt p).map fun x => x.payload.length).sum at hcount
  unfold Peer.Takes
  split
  · omega
  · omega

/-! ## What a task takes off -/

variable [NormalSource ρ] [Consensus ε] {s s' s₀ : Simulation ε ρ} {e : Entry Task} {t : Instant} {n : Nat}

/-- A task takes itself off what can come up to `t`, and no more than that if it is a message or a tick of a peer that
is open and alive. -/
theorem Step.allowance_of_fire (hs : s.Sound) (hle : e.fireAt ≤ t) (hstep : Step s (.fire e) s') :
    World.allowance t s' + 1 ≤ World.allowance t s ∧
    ((∀ p, e.task = .tick p → s.world.isClosed p = false ∧ s.world.isAlive p = true) →
      World.allowance t s' + 1 = World.allowance t s) := by
  have hload : World.allowance t s' = s.world.load t s'.queue := by
    rw [World.allowance_eq_load, World.load_of_origins hstep.origins_of_fire]
  obtain ⟨rest, hq, ⟨hrest, hlast⟩ | ⟨p, peer, u, ht, hp, -, -, hu, hagain⟩⟩ := hstep.queue_of_fire hs
  · rw [hload, hrest, World.allowance_eq_load, hq, World.load_cons, if_pos hle]
    refine ⟨?_, fun hticks => ?_⟩
    · have hpos := s.world.share_pos t e.fireAt e.task
      omega
    · have hone : s.world.share t e.fireAt e.task = 1 := by
        cases ht : e.task with
        | delivery => rfl
        | tick p =>
          obtain ⟨hopen, halive⟩ := hticks p ht
          have hlt : p < s.world.peers.length := by
            have htarget := hs.target_of_queue (hq ▸ List.mem_cons_self)
            rwa [ht] at htarget
          have hp := List.getElem?_eq_getElem hlt
          rw [World.isClosed_eq hp] at hopen
          rw [World.share_of_peer hp, rounds_of_add?_eq_none (hlast p _ ht hp hopen halive)]
      omega
  · have hpos := Config.tick_pos (hs.world.valid peer (List.mem_of_getElem? hp))
    have hshare : s.world.share t e.fireAt e.task =
        (if u ≤ t then s.world.share t u (.tick p) else 0) + 1 := by
      rw [ht, World.share_of_peer hp, World.share_of_peer hp, rounds_of_add? hpos hu]
      split <;> omega
    have hleft : s.world.load t s'.queue = (if u ≤ t then s.world.share t u (.tick p) else 0) + s.world.load t rest :=
      (World.load_perm hagain).trans (World.load_cons ..)
    have heq : World.allowance t s' + 1 = World.allowance t s := by
      rw [hload, hleft, World.allowance_eq_load, hq, World.load_cons, if_pos hle, hshare]
      omega
    exact ⟨heq.le, fun _ => heq⟩

omit [NormalSource ρ] [Consensus ε] in
theorem isDue_of_allowance (h : World.allowance t s = 0) : s.isDue t = false := by
  rw [Machine.isDue]
  cases hq : s.queue with
  | nil => rfl
  | cons e rest =>
    have hpos := s.world.share_pos t e.fireAt e.task
    refine decide_eq_false fun hle => ?_
    rw [World.allowance_eq_load, hq, World.load_cons, if_pos hle] at h
    omega

/-! ## The whole run -/

/-- What is true of `s`, that `n` tasks due at `t` have led to from `s₀`. -/
structure Settling (s₀ : Simulation ε ρ) (t : Instant) (n : Nat) (s : Simulation ε ρ) : Prop where
  isClosed : ∀ p, s.world.isClosed p = s₀.world.isClosed p
  ticks : ∀ x ∈ s.pendingTicks, x.2 ≤ t → ∃ y ∈ s₀.pendingTicks, y.1 = x.1 ∧ y.2 ≤ t
  most : n + World.allowance t s ≤ World.allowance t s₀
  just : (∀ x ∈ s₀.pendingTicks, x.2 ≤ t → s₀.world.isClosed x.1 = false ∧ s.world.isAlive x.1 = true) →
    n + World.allowance t s = World.allowance t s₀

omit [NormalSource ρ] [Consensus ε] in
theorem mem_pendingTicks {p : Nat} {u : Instant} :
    (p, u) ∈ s.pendingTicks ↔ ∃ e ∈ s.queue, e.task = .tick p ∧ e.fireAt = u := by
  rw [pendingTicks, List.mem_filterMap]
  refine exists_congr fun e => and_congr_right fun _ => ?_
  rw [Entry.tick?]
  cases e.task <;> simp [Task.ticks?]

/-- A tick that is new follows on the one that fired. -/
theorem Step.pendingTicks_of_fire (hs : s.Sound) (hstep : Step s (.fire e) s') {p : Nat} {u : Instant}
    (hx : (p, u) ∈ s'.pendingTicks) : (p, u) ∈ s.pendingTicks ∨ (p, e.fireAt) ∈ s.pendingTicks := by
  obtain ⟨f, hf, htask, hat⟩ := mem_pendingTicks.1 hx
  obtain ⟨rest, hq, ⟨hrest, -⟩ | ⟨q, peer, v, ht, -, -, -, -, hagain⟩⟩ := hstep.queue_of_fire hs
  · exact .inl (mem_pendingTicks.2 ⟨f, hq ▸ List.mem_cons_of_mem e (hrest ▸ hf), htask, hat⟩)
  · rcases List.mem_cons.1 (hagain.subset hf) with rfl | hf
    · cases htask
      exact .inr (mem_pendingTicks.2 ⟨e, hq ▸ List.mem_cons_self, ht, rfl⟩)
    · exact .inl (mem_pendingTicks.2 ⟨f, hq ▸ List.mem_cons_of_mem e hf, htask, hat⟩)

theorem Step.settling (hs : s.Sound) (h : s₀.Settling t n s) (hle : e.fireAt ≤ t) (hstep : Step s (.fire e) s') :
    s₀.Settling t (n + 1) s' := by
  obtain ⟨hmost, hjust⟩ := hstep.allowance_of_fire hs hle
  refine ⟨fun p => (hstep.isClosed_of_fire p).trans (h.isClosed p), ?_, ?_, fun hsteady => ?_⟩
  · rintro ⟨p, u⟩ hx hu
    rcases hstep.pendingTicks_of_fire hs hx with hx | hx
    · exact h.ticks (p, u) hx hu
    · exact h.ticks (p, e.fireAt) hx hle
  · have hbefore := h.most
    omega
  · have hbefore := h.just fun x hx hdue =>
      ⟨(hsteady x hx hdue).1, hstep.isAlive_of_fire (hsteady x hx hdue).2⟩
    have hlast := hjust fun p ht => by
      -- the tick comes of one that was due at the start, and its peer is alive to the end
      have hx : (p, e.fireAt) ∈ s.pendingTicks := mem_pendingTicks.2 ⟨e, hstep.mem_queue, ht, rfl⟩
      obtain ⟨⟨q, u⟩, hy, rfl, hdue⟩ := h.ticks _ hx hle
      obtain ⟨hopen, halive⟩ := hsteady _ hy hdue
      exact ⟨(h.isClosed q).trans hopen, hstep.isAlive_of_fire halive⟩
    omega

/-- A run to a deadline ends when nothing is due, after as many tasks as a measure allows at most, unless a count
overflows on the way. -/
theorem runUntil_cases {P : Nat → Simulation ε ρ → Prop} {μ : Simulation ε ρ → Nat}
    (hsettled : ∀ {s}, μ s = 0 → s.isDue t = false)
    (hstep : ∀ {n s e s'}, s.Sound → P n s → e.fireAt ≤ t → Step s (.fire e) s' → P (n + 1) s' ∧ μ s' < μ s)
    (hs : s.Sound) (hP : P 0 s) :
    s.FitsBy t ∧ (∃ (n : Nat) (s₁ : Simulation ε ρ),
      (∀ limit, n ≤ limit → s.runUntil World.handler limit t = .ok (n, s₁.moveTo t)) ∧ n ≤ μ s ∧
        s₁.isDue t = false ∧ P n s₁ ∧ s₁.Sound) ∨
    ¬ s.FitsBy t ∧ ∀ limit, μ s ≤ limit → s.runUntil World.handler limit t = .error .countOverflow := by
  by_cases hfits : s.FitsBy t
  · refine .inl ⟨hfits, ?_⟩
    rcases runWhile_cases hsettled hstep hs hP (Nat.le_refl _) with ⟨-, n, s₁, hwhile, hdue, hP', hs₁⟩ | ⟨hover, -⟩
    · obtain ⟨xs, hfires, hlength, hxs, hle, -⟩ := Machine.runWhile_eq_ok.1 hwhile
      refine ⟨n, s₁, fun limit hlimit => ?_, hle, hdue, hP', hs₁⟩
      exact Machine.runUntil_eq_ok.2
        ⟨xs, s₁, hfires, hlength, fun x hx => of_decide_eq_true (hxs x hx), hlimit, hdue, rfl⟩
    · exact absurd hfits hover
  · refine .inr ⟨hfits, fun limit hle => ?_⟩
    rcases runWhile_cases hsettled hstep hs hP hle with ⟨hfits', -⟩ | ⟨-, hwhile⟩
    · exact absurd hfits' hfits
    · simp only [Machine.runUntil, hwhile]

theorem apply_runUntil (s : Simulation ε ρ) (t : Instant) : s.apply (.time (.runUntil t)) =
    (attempt (s.runUntil World.handler (World.allowance t s) t)).map fun r => (.count r.1, r.2) := by
  simp only [apply, Dynamics.step, Dynamics.runUntil, World.dynamics]
  cases s.runUntil World.handler (World.allowance t s) t <;> rfl

/-- A run to a deadline comes to an end in every state that commands lead to. It takes at most one task for each
message that is due, and for each tick that is due one for every interval from it to the deadline and one more; and
just as many if the peers of these ticks are open, and alive until the end. Only an overflow of the counts stops it,
which is certain beforehand and takes 2⁶⁴ messages or bytes sent through one peer. To advance the clock is to run to
the instant at which the span is over. -/
theorem deadline_reached {clock : Instant} {engines : List ε} {commands : List Command} {answers : List Answer}
    (hrun : (start clock engines).run commands = .ok (answers, s)) (t : Instant) :
    (s.FitsBy t → ∃ n s', (∀ limit, n ≤ limit → s.runUntil World.handler limit t = .ok (n, s')) ∧
      s.apply (.time (.runUntil t)) = .ok (.count n, s') ∧ n ≤ s.tasksBy t ∧
      ((∀ x ∈ s.pendingTicks, x.2 ≤ t → s.world.isClosed x.1 = false ∧ s'.world.isAlive x.1 = true) →
        n = s.tasksBy t)) ∧
    (¬ s.FitsBy t → (∀ limit, s.tasksBy t ≤ limit → s.runUntil World.handler limit t = .error .countOverflow) ∧
      s.apply (.time (.runUntil t)) = .error (.fault .countOverflow)) ∧
    ((∀ p, (sizesFor p (collect sends (start clock engines : Simulation ε ρ) commands)).length < 2 ^ 64 ∧
      (sizesFor p (collect sends (start clock engines : Simulation ε ρ) commands)).sum < 2 ^ 64) → s.FitsBy t) ∧
    ∀ span, s.clock.add? span = some t → s.apply (.time (.advance span)) = s.apply (.time (.runUntil t)) := by
  have hs := sound_of_run hrun
  have hstart : s.Settling t 0 s :=
    ⟨fun _ => rfl, fun x hx hdue => ⟨x, hx, rfl, hdue⟩, Nat.le_of_eq (Nat.zero_add _), fun _ => Nat.zero_add _⟩
  have hcases := runUntil_cases isDue_of_allowance (fun hs h hle hstep =>
    ⟨hstep.settling hs h hle, Nat.lt_of_succ_le (hstep.allowance_of_fire hs hle).1⟩) hs hstart
  rw [← allowance_eq_tasksBy, apply_runUntil]
  refine ⟨fun hfits => ?_, fun hover => ?_, fun hsent => ?_, fun span hspan => ?_⟩
  · obtain ⟨n, s₁, hruns, hle, hdue, hsettling, hs₁⟩ := (hcases.resolve_right fun h => h.1 hfits).2
    refine ⟨n, s₁.moveTo t, hruns, ?_, hle, fun hsteady => ?_⟩
    · rw [hruns _ hle]
      rfl
    · -- nothing is due any more, so that nothing can come of what is left
      have hnone : World.allowance t s₁ = 0 := by
        rw [World.allowance_eq_load]
        exact World.load_eq_zero fun e he => hs₁.ledger.not_due hdue he
      have hjust := hsettling.just hsteady
      rwa [hnone] at hjust
  · have hruns := (hcases.resolve_left fun h => hover h.1).2
    refine ⟨hruns, ?_⟩
    rw [hruns _ (Nat.le_refl _)]
    rfl
  · rw [← map_sent_of_run hrun] at hsent
    exact ((counted_of_run hrun).fits hs hsent).fitsBy t
  · rw [← apply_runUntil]
    simp only [apply, Dynamics.step, Dynamics.advance, hspan]

/-- The loops of an open peer, of a closed one and of one that was let go, and a message. -/
def threeLoops : List Command :=
  [.newPeer 0 jittery none, .newPeer 0 jittery none, .newPeer 0 jittery none, .update 0, .update 1, .update 2,
    .send 0 [1], .close 1, .dropPeer 2]

/-- The instant five intervals of a tick from the start. -/
def fifthTick : Instant := ⟨100 * 10 ^ 6, by decide, by decide⟩

theorem deadline_reached_fifthTick :
    (∃ answers s n s', soloRecorder.run threeLoops = .ok (answers, s) ∧
      s.apply (.time (.runUntil fifthTick)) = .ok (.count n, s') ∧ n ≤ 16) ∧
    ∃ answers s s', soloRecorder.run (calledTwice ++ [.send 0 [1]]) = .ok (answers, s) ∧
      s.apply (.time (.advance ⟨100 * 10 ^ 6, by decide⟩)) = .ok (.count 11, s') := by
  refine ⟨?_, ?_⟩
  · obtain ⟨answers, s, _, hrun, hfind⟩ := exists_of_run soloRecorder threeLoops
      (fun s => if s.tasksBy fifthTick = 16 then some () else none) (by decide +kernel)
    obtain ⟨htasks, -⟩ := Option.ite_none_right_eq_some.1 hfind
    obtain ⟨hruns, -, hfits, -⟩ := deadline_reached hrun fifthTick
    have hsends : collect sends soloRecorder threeLoops = [(0, [1])] := by decide +kernel
    obtain ⟨n, s', -, happly, hle, -⟩ := hruns <| hfits fun p => by
      change (sizesFor p (collect sends soloRecorder threeLoops)).length < 2 ^ 64 ∧
        (sizesFor p (collect sends soloRecorder threeLoops)).sum < 2 ^ 64
      rw [hsends, sizesFor]
      rcases Nat.eq_zero_or_pos p with rfl | hp
      · decide
      · rw [List.filter_cons_of_neg (by simpa using hp.ne), List.filter_nil]
        decide
    exact ⟨answers, s, n, s', hrun, happly, htasks ▸ hle⟩
  · obtain ⟨answers, s, r, hrun, hfind⟩ := exists_of_run soloRecorder (calledTwice ++ [.send 0 [1]])
      (fun s => (s.apply (.time (.runUntil fifthTick))).toOption.filter fun r => s.FitsBy fifthTick ∧
        s.tasksBy fifthTick = 11 ∧ s.clock.add? ⟨100 * 10 ^ 6, by decide⟩ = some fifthTick ∧
          ∀ x ∈ s.pendingTicks, x.2 ≤ fifthTick → s.world.isClosed x.1 = false ∧ r.2.world.isAlive x.1 = true)
      (by decide +kernel)
    obtain ⟨hfound, hcheck⟩ := Option.filter_eq_some_iff.1 hfind
    obtain ⟨hfits, htasks, hclock, hsteady⟩ := of_decide_eq_true hcheck
    obtain ⟨hruns, -, -, hadvance⟩ := deadline_reached hrun fifthTick
    obtain ⟨n, s', -, happly, -, hjust⟩ := hruns hfits
    cases (toOption_eq_some.1 hfound).symm.trans happly
    rw [← htasks, ← hjust hsteady]
    exact ⟨answers, s, s', hrun, (hadvance _ hclock).trans happly⟩

end Simulation

end VirtualMesh

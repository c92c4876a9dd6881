import VirtualMesh.Proofs.Simulation.Starting

/-!
# Simulations and plans in one queue

A joint machine adds nothing of its own. Without plans it does what a simulation does, and without a simulation's
commands it does what a machine of plans does: commands look at the clock and the world, not at the queue.
-/

namespace VirtualMesh

variable {ε ρ α : Type}

/-! ## Machines under other names -/

section
variable {τ τ' ο ο' σ σ' : Type} (f : τ → τ') (g : ο → ο') (k : σ → σ')

def Entry.as (e : Entry τ) : Entry τ' := ⟨e.fireAt, e.number, f e.task⟩

def Event.as : Event τ ο → Event τ' ο'
  | .submitted clock e => .submitted clock (e.as f)
  | .fired clock e o => .fired clock (e.as f) (g o)

def Reaction.as (r : Reaction τ ο σ) : Reaction τ' ο' σ' := ⟨k r.world, g r.outcome, r.submissions.map (.as f)⟩

namespace Machine

/-- The same machine with other tasks, outcomes and worlds. -/
def as (m : Machine τ ο σ) : Machine τ' ο' σ' where
  clock := m.clock
  submissions := m.submissions
  queue := m.queue.map (Entry.as f)
  world := k m.world
  journal := m.journal.map (Event.as f g)

theorem insert_as (e : Entry τ) (q : List (Entry τ)) : insert (e.as f) (q.map (Entry.as f)) = (insert e q).map (Entry.as f) := by
  induction q with
  | nil => rfl
  | cons x q ih =>
    rw [List.map_cons, insert, insert]
    by_cases hle : x.fireAt ≤ e.fireAt
    · rw [if_pos hle, if_pos (show (x.as f).fireAt ≤ (e.as f).fireAt from hle), ih, List.map_cons]
    · rw [if_neg hle, if_neg (show ¬(x.as f).fireAt ≤ (e.as f).fireAt from hle), List.map_cons, List.map_cons]

theorem put_as (m : Machine τ ο σ) (s : Submission τ) : (m.as f g k).put (s.as f) = (m.put s).as f g k := by
  simp only [put, as, Machine.mk.injEq, List.map_cons, true_and]
  exact ⟨insert_as f ⟨s.fireAt, m.submissions, s.task⟩ m.queue, rfl⟩

theorem putAll_as (m : Machine τ ο σ) (ss : List (Submission τ)) :
    putAll (ss.map (.as f)) (m.as f g k) = (putAll ss m).as f g k := by
  induction ss generalizing m with
  | nil => rfl
  | cons s ss ih => rw [List.map_cons, putAll_cons, put_as, ih, putAll_cons]

variable {f g k} {h : Handler τ ο σ} {h' : Handler τ' ο' σ'}
  (hh : ∀ t clock w, h' (f t) clock (k w) = (h t clock w).map (Reaction.as f g k))
include hh

theorem fire_as (m : Machine τ ο σ) (e : Entry τ) (rest : List (Entry τ)) :
    (m.as f g k).fire h' (e.as f) (rest.map (Entry.as f)) = (m.fire h e rest).map (as f g k) := by
  have hhandler : h' (e.as f).task (max (m.as f g k).clock (e.as f).fireAt) (m.as f g k).world = _ :=
    hh e.task (max m.clock e.fireAt) m.world
  rw [fire_eq_map, fire_eq_map, hhandler]
  cases h e.task (max m.clock e.fireAt) m.world with
  | error => rfl
  | ok r => exact congrArg Except.ok (putAll_as f g k (m.popped e rest r.outcome r.world) r.submissions)

theorem runWhile_as (due : Instant → Bool) (limit ran : Nat) (m : Machine τ ο σ) :
    (m.as f g k).runWhile h' due limit ran = (m.runWhile h due limit ran).map fun r => (r.1, r.2.as f g k) := by
  induction limit generalizing ran m with
  | zero => rfl
  | succ limit ih =>
    cases hq : m.queue with
    | nil =>
      have hq' : (m.as f g k).queue = [] := by rw [as, hq]; rfl
      simp only [runWhile, hq, hq']
      rfl
    | cons e rest =>
      have hq' : (m.as f g k).queue = e.as f :: rest.map (Entry.as f) := by rw [as, hq]; rfl
      simp only [runWhile, hq, hq', fire_as hh]
      show (if due e.fireAt then _ else _) = _
      cases due e.fireAt with
      | false => rfl
      | true =>
        simp only [if_true]
        cases m.fire h e rest with
        | error => rfl
        | ok m₁ => exact ih (ran + 1) m₁

omit hh in
theorem isDue_as (f : τ → τ') (g : ο → ο') (k : σ → σ') (t : Instant) (m : Machine τ ο σ) :
    (m.as f g k).isDue t = m.isDue t := by
  rw [isDue, isDue, as]
  cases m.queue <;> rfl

theorem runUntil_as (limit : Nat) (t : Instant) (m : Machine τ ο σ) :
    (m.as f g k).runUntil h' limit t = (m.runUntil h limit t).map fun r => (r.1, r.2.as f g k) := by
  simp only [runUntil, runWhile_as hh]
  cases m.runWhile h (fun u => u ≤ t) limit 0 with
  | error => rfl
  | ok r =>
    simp only [Except.map, isDue_as]
    cases r.2.isDue t <;> rfl

end Machine

/-- Machines of two kinds take the same steps in time if tasks do the same in both, and as many may run. -/
theorem Dynamics.step_as {f : τ → τ'} {g : ο → ο'} {k : σ → σ'} {d : Dynamics τ ο σ} {d' : Dynamics τ' ο' σ'}
    (hhandler : ∀ t clock w, d'.handler (f t) clock (k w) = (d.handler t clock w).map (Reaction.as f g k))
    (hallowance : ∀ t m, d'.allowance t (m.as f g k) = d.allowance t m) (m : Machine τ ο σ) (step : ClockStep) :
    d'.step (m.as f g k) step = (d.step m step).map fun r => (r.1, r.2.as f g k) := by
  have huntil : ∀ t, d'.runUntil t (m.as f g k) = (d.runUntil t m).map fun r => (r.1, r.2.as f g k) := by
    intro t
    rw [runUntil, hallowance]
    exact Machine.runUntil_as hhandler ..
  cases step with
  | runNext =>
    simp only [Dynamics.step, Machine.runNext_eq]
    exact Machine.runWhile_as hhandler ..
  | runUntil t => exact huntil t
  | advance span =>
    simp only [Dynamics.step, advance, show (m.as f g k).clock = m.clock from rfl]
    cases m.clock.add? span with
    | none => rfl
    | some t => exact huntil t
  | runAll limit => exact Machine.runWhile_as hhandler ..

end

/-! ## Commands do not look at the queue -/

theorem Refusal.not_excused_of_none (x : Refusal) : ¬x.Excused fun _ => False := by
  cases x <;> exact id

namespace Simulation

/-- A relation of simulations that keeps clock and world, and that each change a command can make preserves. -/
structure Blind (R : Simulation ε ρ → Simulation ε ρ → Prop) : Prop where
  clock {s t : Simulation ε ρ} : R s t → t.clock = s.clock
  world {s t : Simulation ε ρ} : R s t → t.world = s.world
  put {s t : Simulation ε ρ} (x : Submission Task) : R s t → R (s.put x) (t.put x)
  withWorld {s t : Simulation ε ρ} (w : World ε ρ) : R s t → R (s.withWorld w) (t.withWorld w)

namespace Blind

variable {R : Simulation ε ρ → Simulation ε ρ → Prop} (hR : Blind R) {s t : Simulation ε ρ}
include hR

theorem putAll (h : R s t) (xs : List (Submission Task)) : R (Machine.putAll xs s) (Machine.putAll xs t) := by
  induction xs generalizing s t with
  | nil => exact h
  | cons x xs ih => exact ih (hR.put x h)

theorem handOut (h : R s t) (p : Nat) : (t.handOut p).1 = (s.handOut p).1 ∧ R (s.handOut p).2 (t.handOut p).2 := by
  rw [Simulation.handOut, Simulation.handOut, hR.world h]
  exact ⟨rfl, hR.withWorld _ h⟩

theorem addPeer (h : R s t) (engine source : Nat) (config : Config) :
    (t.addPeer engine source config).1 = (s.addPeer engine source config).1 ∧
      R (s.addPeer engine source config).2 (t.addPeer engine source config).2 := by
  rw [Simulation.addPeer, Simulation.addPeer, hR.world h]
  exact hR.handOut (hR.withWorld _ h) _

section
variable [NormalSource ρ]

theorem addSource (h : R s t) (seed : Option UInt64) :
    (t.addSource seed).1 = (s.addSource seed).1 ∧ R (s.addSource seed).2 (t.addSource seed).2 := by
  rw [Simulation.addSource, Simulation.addSource, hR.world h]
  exact ⟨rfl, hR.withWorld _ h⟩

theorem send (h : R s t) (p : Nat) (payload : Bytes) : Tally (fun _ => False) R (s.send p payload) (t.send p payload) := by
  unfold Simulation.send
  rw [hR.world h, hR.clock h]
  cases s.world.peers[p]? with
  | none => exact .ok h
  | some peer =>
    simp only
    cases s.world.sources[peer.source]? with
    | none => exact .ok h
    | some source =>
      simp only
      cases s.clock.add? (peer.recorded (peer.latency.sample source).1).clamped with
      | none => exact .error
      | some u => exact .ok (hR.put _ (hR.withWorld _ h))

theorem sendAll (h : R s t) (ms : List (Nat × Bytes)) : Tally (fun _ => False) R (s.sendAll ms) (t.sendAll ms) := by
  induction ms generalizing s t with
  | nil => exact .ok h
  | cons m ms ih =>
    simp only [Simulation.sendAll, List.foldlM_cons]
    exact (hR.send h m.1 m.2).bind fun h₁ => ih h₁

end

variable [Consensus ε]

theorem update (h : R s t) (p : Nat) : (t.update p).1 = (s.update p).1 ∧ R (s.update p).2 (t.update p).2 := by
  rw [Simulation.update, Simulation.update, hR.world h, hR.clock h]
  exact ⟨rfl, hR.putAll (hR.withWorld _ h) _⟩

theorem updateAll (h : R s t) (ps : List Nat) : R (s.updateAll ps) (t.updateAll ps) := by
  induction ps generalizing s t with
  | nil => exact h
  | cons p ps ih => exact ih (hR.update h p).2

theorem attachTo (h : R s t) (engine : Nat) (ps : List Nat) :
    Option.Rel R (s.attachTo engine ps) (t.attachTo engine ps) := by
  simp only [Simulation.attachTo, hR.world h, Option.bind_eq_bind]
  cases s.world.engines[engine]? with
  | none => exact .none
  | some x =>
    simp only [Option.bind_some]
    cases Consensus.attach? x (s.world.link engine ps).1 with
    | none => exact .none
    | some y => exact .some (hR.withWorld _ h)

theorem wire (h : R s t) (engine : Nat) (rows : List (List (Nat × Nat))) : R (s.wire engine rows) (t.wire engine rows) := by
  induction rows generalizing s t engine with
  | nil => exact h
  | cons row rows ih =>
    rw [Simulation.wire, Simulation.wire]
    refine ih ?_ (engine + 1)
    have hattach := hR.attachTo h engine (row.map Prod.snd)
    generalize s.attachTo engine (row.map Prod.snd) = o at hattach
    generalize t.attachTo engine (row.map Prod.snd) = o' at hattach
    cases hattach with
    | none => exact h
    | some h₁ => exact h₁

variable [NormalSource ρ]

theorem propose (h : R s t) (engine : Nat) (state : State) :
    Tally (fun _ => False) R (s.propose engine state) (t.propose engine state) := by
  simp only [Simulation.propose, hR.world h]
  cases s.world.engines[engine]? with
  | none => exact .ok h
  | some x =>
    refine Tally.bind (.refl (fun _ => rfl) _) fun {r r'} hr => ?_
    obtain rfl := hr
    exact hR.sendAll (hR.withWorld _ h) _

/-- The same answers, and states that are related. -/
abbrev Replies (R : Simulation ε ρ → Simulation ε ρ → Prop) :
    Except Refusal (Answer × Simulation ε ρ) → Except Refusal (Answer × Simulation ε ρ) → Prop :=
  Tally (Refusal.Excused fun _ => False) fun r r' => r'.1 = r.1 ∧ R r.2 r'.2

omit [Consensus ε] [NormalSource ρ] in
theorem handOut_reply (h : R s t) (p : Nat) :
    Replies R (.ok (.count (s.handOut p).1, (s.handOut p).2)) (.ok (.count (t.handOut p).1, (t.handOut p).2)) := by
  obtain ⟨hhandle, h₁⟩ := hR.handOut h p
  exact .ok ⟨congrArg Answer.count hhandle, h₁⟩

omit [Consensus ε] in
theorem newPeer (h : R s t) (engine : Nat) (config : Config) (shared : Option Nat) :
    Replies R (s.newPeer engine config shared) (t.newPeer engine config shared) := by
  unfold Simulation.newPeer
  rw [hR.world h]
  refine Tally.bind_require rfl fun _ _ => ?_
  extract_lets make make'
  have hmake : ∀ source, Replies R (make source) (make' source) := by
    intro source
    unfold make make'
    cases config.validate with
    | error e => exact .ok ⟨rfl, h⟩
    | ok _ =>
      cases source with
      | some source =>
        obtain ⟨hhandle, h₁⟩ := hR.addPeer h engine source config
        exact .ok ⟨congrArg Answer.count hhandle, h₁⟩
      | none =>
        obtain ⟨hsource, h₁⟩ := hR.addSource h config.seed
        obtain ⟨hhandle, h₂⟩ := hR.addPeer h₁ engine (s.addSource config.seed).1 config
        simp only [hsource]
        exact .ok ⟨congrArg Answer.count hhandle, h₂⟩
  cases shared with
  | none => exact hmake none
  | some n =>
    refine Tally.bind (.refl (fun _ => rfl) _) fun {source _} hsource => ?_
    subst hsource
    exact hmake source

theorem apply (h : R s t) {c : Command} (hc : ∀ step, c ≠ .time step) : Replies R (s.apply c) (t.apply c) := by
  have hworld := hR.world h
  cases c with
  | time step => exact absurd rfl (hc step)
  | newSource seed =>
    obtain ⟨hsource, h₁⟩ := hR.addSource h (some seed)
    simp only [Simulation.apply, hsource, hR.world h₁]
    exact .ok ⟨rfl, hR.withWorld _ h₁⟩
  | newPeer engine config shared => exact hR.newPeer h engine config shared
  | clonePeer handle =>
    simp only [Simulation.apply, hworld]
    exact Tally.bind_require rfl fun p _ => hR.handOut_reply h p
  | dropPeer handle =>
    simp only [Simulation.apply, hworld]
    exact Tally.bind_require rfl fun _ _ => .ok ⟨rfl, hR.withWorld _ h⟩
  | send handle payload =>
    simp only [Simulation.apply, hworld]
    exact Tally.bind_require rfl fun p _ => (Tally.attempt (hR.send h p payload)).bind fun h₁ => .ok ⟨rfl, h₁⟩
  | update handle =>
    simp only [Simulation.apply, hworld]
    refine Tally.bind_require rfl fun p _ => ?_
    obtain ⟨houtcome, h₁⟩ := hR.update h p
    exact .ok ⟨congrArg Answer.ticked houtcome, h₁⟩
  | close handle =>
    simp only [Simulation.apply, hworld]
    exact Tally.bind_require rfl fun p _ => .ok ⟨rfl, hR.withWorld _ h⟩
  | propose handle state =>
    simp only [Simulation.apply, hworld]
    refine Tally.bind_require rfl fun p _ => Tally.bind_require rfl fun peer _ => ?_
    exact (Tally.attempt (hR.propose h peer.engine state)).bind fun h₁ => .ok ⟨rfl, h₁⟩
  | receiveAt engine message =>
    simp only [Simulation.apply, hworld]
    exact Tally.bind_require rfl fun x _ => .ok ⟨rfl, hR.withWorld _ h⟩
  | updateAt engine =>
    simp only [Simulation.apply, hworld]
    exact Tally.bind_require rfl fun x _ => .ok ⟨rfl, hR.withWorld _ h⟩
  | proposeAt engine state =>
    simp only [Simulation.apply, hworld]
    refine Tally.bind_require rfl fun _ _ => ?_
    exact (Tally.attempt (hR.propose h engine state)).bind fun h₁ => .ok ⟨rfl, h₁⟩
  | reject engine error =>
    simp only [Simulation.apply, hworld]
    exact Tally.bind_require rfl fun x _ => Tally.bind_require rfl fun y _ => .ok ⟨rfl, hR.withWorld _ h⟩
  | attach engine handles =>
    simp only [Simulation.apply, hworld]
    refine Tally.bind (.refl (fun _ => rfl) _) fun {peers _} hpeers => ?_
    subst hpeers
    exact (Tally.require (hR.attachTo h engine peers)).bind fun h₁ => .ok ⟨rfl, h₁⟩
  | unlink engine count =>
    simp only [Simulation.apply, hworld]
    exact Tally.bind_require rfl fun _ _ => .ok ⟨rfl, hR.withWorld _ h⟩
  | buildMesh config engines =>
    simp only [Simulation.apply, hworld]
    refine Tally.bind (.refl (fun _ => rfl) _) fun _ => ?_
    cases s.world.buildMesh (engines.getD (List.range s.world.engines.length)) config with
    | error e => exact .ok ⟨rfl, h⟩
    | ok w => exact .ok ⟨rfl, hR.withWorld w h⟩
  | holdPeer place target =>
    simp only [Simulation.apply, hworld]
    refine Tally.bind_require rfl fun m _ => ?_
    cases m.peer place target with
    | error e => exact .ok ⟨rfl, h⟩
    | ok p => exact hR.handOut_reply h p
  | broadcast place payload =>
    simp only [Simulation.apply, hworld]
    refine Tally.bind_require rfl fun m _ => ?_
    cases m.peersOf place with
    | error e => exact .ok ⟨rfl, h⟩
    | ok row => exact (Tally.attempt (hR.sendAll h _)).bind fun h₁ => .ok ⟨rfl, h₁⟩
  | wireMesh =>
    simp only [Simulation.apply, hworld]
    exact Tally.bind_require rfl fun m _ => .ok ⟨rfl, hR.wire h 0 m.rows⟩
  | startMesh =>
    simp only [Simulation.apply, hworld]
    exact Tally.bind_require rfl fun m _ => .ok ⟨rfl, hR.updateAll h m.peers⟩
  | closeMesh =>
    simp only [Simulation.apply, hworld]
    exact Tally.bind_require rfl fun m _ => .ok ⟨rfl, hR.withWorld _ h⟩
  | dropMesh =>
    simp only [Simulation.apply, hworld]
    exact Tally.bind_require rfl fun _ _ => .ok ⟨rfl, hR.withWorld _ h⟩

end Blind

end Simulation

namespace Joint

/-! ## No plans -/

/-- A simulation, with no plans in its queue. -/
def ofSimulation (s : Simulation ε ρ) : Joint ε ρ α := s.as Sum.inl Sum.inl id

theorem allowance_ofSimulation [Consensus ε] (t : Instant) (s : Simulation ε ρ) :
    dynamics.allowance t (ofSimulation s : Joint ε ρ α) = World.dynamics.allowance t s := by
  show ((s.queue.map (Entry.as Sum.inl)).map (share s.world t)).foldr (· + ·) 0 =
    ((s.queue.filter fun e => e.fireAt ≤ t).map fun e => s.world.share t e.fireAt e.task).foldr (· + ·) 0
  induction s.queue with
  | nil => rfl
  | cons e q ih =>
    rw [List.map_cons, List.map_cons, List.foldr_cons, ih]
    by_cases hdue : e.fireAt ≤ t
    · rw [List.filter_cons_of_pos (by simpa using hdue), List.map_cons, List.foldr_cons]
      exact congrArg (· + _) (if_pos hdue)
    · rw [List.filter_cons_of_neg (by simpa using hdue), show share s.world t (e.as Sum.inl) = 0 from if_neg hdue]
      exact Nat.zero_add _

theorem takeUp_put (m : Joint ε ρ α) (s : Simulation ε ρ) (x : Submission Task) :
    m.takeUp (s.put x) = (m.takeUp s).put (x.as .inl) := by
  rw [takeUp, Machine.submitted_put, List.map_append]
  exact List.foldl_append

theorem takeUp_withWorld (m : Joint ε ρ α) (s : Simulation ε ρ) (w : World ε ρ) :
    m.takeUp (s.withWorld w) = (m.takeUp s).withWorld w := by
  have hworld : ∀ (ss : List (Submission (Task ⊕ Plan α))) (m : Joint ε ρ α) (w : World ε ρ),
      Machine.putAll ss (m.withWorld w) = (Machine.putAll ss m).withWorld w := by
    intro ss
    induction ss with
    | nil => exact fun _ _ => rfl
    | cons y ss ih => exact fun m w => ih (m.put y) w
  rw [takeUp, takeUp, Machine.absorb, Machine.absorb, hworld, hworld]
  rfl

/-- What a command makes of the world alone, it makes of the world in a simulation. -/
theorem blind_takeUp (s : Simulation ε ρ) : Simulation.Blind fun a b : Simulation ε ρ =>
    (b.clock = a.clock ∧ b.world = a.world) ∧ (ofSimulation s : Joint ε ρ α).takeUp a = ofSimulation b where
  clock h := h.1.1
  world h := h.1.2
  put x h := by
    refine ⟨h.1, ?_⟩
    rw [takeUp_put, h.2]
    exact Machine.put_as ..
  withWorld w h := by
    refine ⟨⟨h.1.1, rfl⟩, ?_⟩
    rw [takeUp_withWorld, h.2]
    rfl

variable [NormalSource ρ] [Consensus ε]

theorem apply_ofSimulation (s : Simulation ε ρ) (c : VirtualMesh.Command) :
    (ofSimulation s : Joint ε ρ α).apply (.order c) = (s.apply c).map fun r => (r.1, ofSimulation r.2) := by
  by_cases htime : ∃ step, c = .time step
  · obtain ⟨step, rfl⟩ := htime
    have hstep : dynamics.step (ofSimulation s : Joint ε ρ α) step =
        (World.dynamics.step s step).map fun r => (r.1, ofSimulation r.2) :=
      Dynamics.step_as (fun task clock w => by rfl) allowance_ofSimulation s step
    simp only [apply, hstep, Simulation.apply]
    cases World.dynamics.step s step <;> rfl
  · have hstill : ∀ step, c ≠ .time step := fun step hc => htime ⟨step, hc⟩
    have hreplies := (blind_takeUp (α := α) s).apply
      (s := (ofSimulation s : Joint ε ρ α).aside) (t := s) ⟨⟨rfl, rfl⟩, rfl⟩ hstill
    rw [apply_still hstill]
    exact hreplies.map_eq Refusal.not_excused_of_none fun hr => Prod.ext hr.1.symm hr.2.2

theorem run_ofSimulation (s : Simulation ε ρ) (cs : List VirtualMesh.Command) :
    Script.run apply (ofSimulation s : Joint ε ρ α) (cs.map .order) =
      (s.run cs).map fun r => (r.1, ofSimulation r.2) := by
  induction cs generalizing s with
  | nil => rfl
  | cons c cs ih =>
    rw [List.map_cons, Script.run, apply_ofSimulation, Simulation.run_cons]
    cases s.apply c with
    | error => rfl
    | ok r =>
      show (Script.run apply (ofSimulation r.2) (cs.map .order)).map _ = ((r.2.run cs).map _).map _
      rw [ih]
      cases r.2.run cs <;> rfl

/-! ## Nothing but plans -/

/-- A machine of plans, beside a world that they do not touch. -/
def ofPlans (w : World ε ρ) (m : Machine (Plan α) Unit Unit) : Joint ε ρ α := m.as Sum.inr Sum.inr fun _ => w

def Command.ofOperation : Operation (Plan α) → Command α
  | .put s => .plan s
  | .time step => .order (.time step)

/-- What a command answers for an operation that runs `n` tasks. -/
def answerOf : Operation (Plan α) → Nat → Answer
  | .put _, _ => .done
  | .time _, n => .count n

theorem apply_ofPlans (w : World ε ρ) (m : Machine (Plan α) Unit Unit) (o : Operation (Plan α)) :
    (ofPlans w m).apply (.ofOperation o) =
      (Simulation.attempt (Plan.dynamics.operate m o)).map fun r => (answerOf o r.1, ofPlans w r.2) := by
  cases o with
  | put s => exact congrArg (fun m : Joint ε ρ α => Except.ok (Answer.done, m)) (Machine.put_as ..)
  | time step =>
    have hstep : dynamics.step (ofPlans w m) step = (Plan.dynamics.step m step).map fun r => (r.1, ofPlans w r.2) :=
      Dynamics.step_as (fun plan clock _ => by rfl) (fun t m => by
        show ((m.queue.map (Entry.as Sum.inr)).map (share w t)).foldr (· + ·) 0 = _
        rw [List.map_map]
        rfl) m step
    simp only [apply, hstep, Command.ofOperation, Dynamics.operate]
    cases Plan.dynamics.step m step <;> rfl

theorem run_ofPlans (w : World ε ρ) (m : Machine (Plan α) Unit Unit) (os : List (Operation (Plan α))) :
    (Script.run apply (ofPlans w m) (os.map .ofOperation)).map Prod.snd =
      (Simulation.attempt (Script.run Plan.dynamics.operate m os)).map fun r => ofPlans w r.2 := by
  induction os generalizing m with
  | nil => rfl
  | cons o os ih =>
    rw [List.map_cons, Script.run, apply_ofPlans, Script.run]
    cases Plan.dynamics.operate m o with
    | error => rfl
    | ok r =>
      have hlast : ∀ {a : Answer} {y : Except Refusal (List Answer × Joint ε ρ α)},
          (y.map fun x => (a :: x.1, x.2)).map Prod.snd = y.map Prod.snd := fun {_ y} => by cases y <;> rfl
      refine (hlast.trans (ih r.2)).trans ?_
      cases hrun : Script.run Plan.dynamics.operate r.2 os <;> simp only [bind, Except.bind, hrun] <;> rfl

end Joint

end VirtualMesh

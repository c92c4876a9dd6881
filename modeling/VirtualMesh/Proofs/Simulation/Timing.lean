import VirtualMesh.Proofs.Simulation.Messages

/-!
# Times at which tasks run

A message is put into the queue for the time when its delay has passed, a tick for the time when the
interval of its peer has. Neither lies in the past, and the clock never passes a task that is due. So
every task runs at the very time for which it was put, and tasks run in the order of those times.
-/

namespace VirtualMesh

/-- How long after its submission a task is to run. -/
def Task.span? {ε ρ : Type} (w : World ε ρ) : Task → Option Duration
  | .delivery _ _ delay => some delay.clamped
  | .tick p => (w.peers[p]?).map fun peer => peer.config.tick

namespace World

variable {ε ρ : Type} {w : World ε ρ} {p : Nat} {peer : Peer}

def isClosed (w : World ε ρ) (p : Nat) : Bool := (w.peers[p]?).any Peer.isClosed

theorem isClosed_eq (hp : w.peers[p]? = some peer) : w.isClosed p = peer.isClosed := by
  rw [isClosed, hp, Option.any_some]

theorem exists_of_isClosed (h : w.isClosed p = true) :
    ∃ peer, w.peers[p]? = some peer ∧ peer.isClosed = true :=
  (Option.any_eq_true ..).1 h

end World

namespace Simulation

variable {ε ρ : Type}

theorem arm_cases (s : Simulation ε ρ) (interval : Duration) (p : Nat) :
    s.clock.add? interval = none ∧
        Machine.putAll (Ticker.arm interval (Task.tick p) s.clock) s = s ∨
      ∃ t, s.clock.add? interval = some t ∧
        Machine.putAll (Ticker.arm interval (Task.tick p) s.clock) s = Machine.put ⟨t, .tick p⟩ s := by
  unfold Ticker.arm
  cases ht : s.clock.add? interval with
  | none => exact .inl ⟨rfl, rfl⟩
  | some t => exact .inr ⟨t, rfl, rfl⟩

/-- Every task was submitted for the time at which its span has passed. -/
def Timed (s : Simulation ε ρ) : Prop :=
  ∀ x ∈ s.submitted, ∃ span, x.2.task.span? s.world = some span ∧
    x.2.fireAt.nanos = x.1.nanos + span.nanos

theorem span?_eq_some {s s' : Simulation ε ρ} (h : s.world.origins <+: s'.world.origins) {task : Task}
    {span : Duration} (hspan : task.span? s.world = some span) : task.span? s'.world = some span := by
  have horigins : ∀ w : World ε ρ, ∀ p, Task.span? w (.tick p) = (w.origins[p]?).map fun o => o.config.tick := by
    intro w p
    rw [World.origins, List.getElem?_map, Option.map_map]
    rfl
  cases task with
  | delivery => exact hspan
  | tick p =>
    rw [horigins] at hspan ⊢
    obtain ⟨origin, hp, rfl⟩ := Option.map_eq_some_iff.1 hspan
    obtain ⟨hlt, rfl⟩ := List.getElem?_eq_some_iff.1 hp
    rw [List.prefix_iff_getElem?.1 h p hlt]
    rfl

variable [NormalSource ρ] [Consensus ε] {s s' s₁ : Simulation ε ρ} {a : Action} {as : List Action}

/-- An entry that an action puts into the queue, with the clock. -/
structure Puts (s : Simulation ε ρ) (x : Instant × Entry Task) (s' : Simulation ε ρ) : Prop where
  submitted : s'.submitted = s.submitted ++ [x]
  span : ∃ span, x.2.task.span? s.world = some span ∧ x.2.fireAt.nanos = x.1.nanos + span.nanos
  isOpen : ∀ p, x.2.task = .tick p → s.world.isClosed p = false

omit [NormalSource ρ] [Consensus ε] in
theorem puts_arm {p : Nat} {peer : Peer} (hp : s.world.peers[p]? = some peer) (hopen : peer.isClosed = false)
    (hs : s₁.submitted = s.submitted) :
    (Machine.putAll (Ticker.arm peer.config.tick (Task.tick p) s₁.clock) s₁).submitted = s.submitted ∨
      ∃ x, s.Puts x (Machine.putAll (Ticker.arm peer.config.tick (Task.tick p) s₁.clock) s₁) := by
  rcases s₁.arm_cases peer.config.tick p with ⟨-, heq⟩ | ⟨t, ht, heq⟩
  · exact .inl (by rw [heq, hs])
  · refine .inr ⟨(s₁.clock, s₁.entryOf ⟨t, .tick p⟩), ?_, ⟨peer.config.tick, ?_, Instant.nanos_of_add? ht⟩, ?_⟩
    · rw [heq, Machine.submitted_put, hs]
    · simp [Machine.entryOf, Task.span?, hp]
    · rintro q hq
      cases hq
      rw [World.isClosed_eq hp, hopen]

theorem Step.submitted_cases (hstep : Step s a s') :
    s'.submitted = s.submitted ∨ ∃ x, s.Puts x s' := by
  cases hstep with
  | @tick e rest p peer x hq ht halive hp hopen hx => exact puts_arm hp hopen (Machine.submitted_popped ..)
  | @update p peer x hp hopen hx => exact puts_arm hp hopen rfl
  | @send p payload peer source fireAt hp hsource hat =>
    exact .inr ⟨_, Machine.submitted_put .., ⟨_, rfl, Instant.nanos_of_add? hat⟩, nofun⟩
  | _ => exact .inl (by simp)

theorem Step.timed (hs : s.Timed) (hstep : Step s a s') : s'.Timed := by
  have hkeep : ∀ x : Instant × Entry Task, (∃ span, x.2.task.span? s.world = some span ∧
      x.2.fireAt.nanos = x.1.nanos + span.nanos) →
      ∃ span, x.2.task.span? s'.world = some span ∧ x.2.fireAt.nanos = x.1.nanos + span.nanos := by
    rintro x ⟨span, hspan, hat⟩
    exact ⟨span, span?_eq_some hstep.origins_prefix hspan, hat⟩
  intro x hx
  rcases hstep.submitted_cases with heq | ⟨y, hputs⟩
  · exact hkeep x (hs x (heq ▸ hx))
  · rw [hputs.submitted] at hx
    rcases List.mem_append.1 hx with hx | hx
    · exact hkeep x (hs x hx)
    · rw [List.mem_singleton.1 hx]
      exact hkeep y hputs.span

theorem timed_of_run {clock : Instant} {engines : List ε} {commands : List Command}
    {answers : List Answer} (hrun : (start clock engines).run commands = .ok (answers, s)) : s.Timed := by
  obtain ⟨as, htrace, -, -⟩ := run_trace (.start clock engines) hrun
  exact htrace.induct (A := fun _ => True) (fun _ hs hstep => hstep.timed hs) (fun _ _ => trivial)
    fun x hx => nomatch hx

/-- In every state that commands lead to, nothing in the queue is overdue, and the next task will run at
its fire time. Every task ran at its fire time, which is the clock at its submission and the recorded
delay of a message, or the interval of a tick; and tasks ran in the order of fire times and, at one time,
of submissions. -/
theorem tasks_on_time {clock : Instant} {engines : List ε} {commands : List Command}
    {answers : List Answer} (hrun : (start clock engines).run commands = .ok (answers, s)) :
    (∀ e ∈ s.queue, s.clock ≤ e.fireAt) ∧
    (∀ (e : Entry Task) (rest : List (Entry Task)) (s' : Simulation ε ρ), s.queue = e :: rest →
      s.fire World.handler e rest = .ok s' →
        s'.clock = e.fireAt ∧ ∃ outcome, s'.fired = s.fired ++ [(e.fireAt, e, outcome)]) ∧
    (∀ x ∈ s.fired, x.1 = x.2.1.fireAt ∧ ∃ submittedAt span, (submittedAt, x.2.1) ∈ s.submitted ∧
      x.2.1.task.span? s.world = some span ∧ x.1.nanos = submittedAt.nanos + span.nanos) ∧
    (s.fired.map fun x => x.2.1).Pairwise Entry.Before ∧
    s.submitted.map (fun x => x.2.number) = List.range s.submissions := by
  have hs := sound_of_run hrun
  refine ⟨hs.punctual.pending, ?_, ?_, hs.punctual.ordered, hs.ledger.numbered⟩
  · intro e rest s' hq hfire
    obtain ⟨r, -, rfl⟩ := Machine.fire_eq_ok.1 hfire
    have hclock := hs.punctual.max_clock hq
    refine ⟨by rw [Machine.clock_putAll, Machine.clock_popped, hclock], r.outcome, ?_⟩
    rw [Machine.fired_putAll, Machine.fired_popped, hclock]
  · intro x hx
    have hexact := hs.punctual.exact x hx
    obtain ⟨submittedAt, hsubmitted⟩ := hs.ledger.submitted_of_fired hx
    obtain ⟨span, hspan, hat⟩ := timed_of_run hrun _ hsubmitted
    exact ⟨hexact, submittedAt, span, hsubmitted, hspan, by rw [hexact, hat]⟩

/-- Two messages and two ticks, with the clock moved in all four ways. -/
def mixed : List Command :=
  [.newPeer 0 jittery none, .update 0, .send 0 [1], .send 0 [2], .time .runNext, .time (.advance ⟨25 * 10 ^ 6, by decide⟩),
    .time (.runUntil default), .time (.runAll 1)]

theorem tasks_on_time_mixed : ∃ answers s, soloRecorder.run mixed = .ok (answers, s) ∧ s.fired.length = 4 ∧
    s.queue.length = 1 ∧ (∀ e ∈ s.queue, s.clock ≤ e.fireAt) ∧ ∀ x ∈ s.fired, x.1 = x.2.1.fireAt := by
  obtain ⟨answers, s, _, hrun, hfind⟩ := exists_of_run soloRecorder mixed
    (fun s => if s.fired.length = 4 ∧ s.queue.length = 1 then some () else none) (by decide +kernel)
  obtain ⟨⟨hfired, hqueue⟩, -⟩ := Option.ite_none_right_eq_some.1 hfind
  obtain ⟨hpending, -, hexact, -⟩ := tasks_on_time hrun
  exact ⟨answers, s, hrun, hfired, hqueue, hpending, fun x hx => (hexact x hx).1⟩

end Simulation

end VirtualMesh

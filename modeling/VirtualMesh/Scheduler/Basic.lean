import VirtualMesh.Fault
import VirtualMesh.Time.Instant

/-!
# Virtual time

A machine holds a clock, a queue of tasks with their fire times, and a world that tasks act on.
Time passes only when the machine is told to run: it takes the task with the least fire time,
of several the one submitted first, moves the clock up to that time, and lets the task change
the world and submit further tasks. A fire time in the past means as soon as possible; the clock
never goes back.
-/

namespace VirtualMesh

/-- A task in the queue, with its place in the order of submissions. -/
structure Entry (τ : Type) where
  fireAt : Instant
  number : Nat
  task : τ

structure Submission (τ : Type) where
  fireAt : Instant
  task : τ

/-- What a task did: the world after it, an outcome, and the tasks it submitted, in order. -/
structure Reaction (τ ο σ : Type) where
  world : σ
  outcome : ο
  submissions : List (Submission τ)

/-- What tasks of a kind do, given the clock and the world. -/
abbrev Handler (τ ο σ : Type) := τ → Instant → σ → Except Fault (Reaction τ ο σ)

inductive Event (τ ο : Type) where
  | submitted (clock : Instant) (entry : Entry τ)
  | fired (clock : Instant) (entry : Entry τ) (outcome : ο)

/-- The queue is kept in firing order, and the journal has the latest event in front. -/
structure Machine (τ ο σ : Type) where
  clock : Instant
  submissions : Nat
  queue : List (Entry τ)
  world : σ
  journal : List (Event τ ο)

namespace Machine

variable {τ ο σ : Type}

def startingAt (clock : Instant) (world : σ) : Machine τ ο σ := ⟨clock, 0, [], world, []⟩

def withWorld (m : Machine τ ο σ) (world : σ) : Machine τ ο σ := { m with world }

def pending (m : Machine τ ο σ) : Nat := m.queue.length

def fireTimes (m : Machine τ ο σ) : List Instant := m.queue.map Entry.fireAt

def nextFireTime (m : Machine τ ο σ) : Option Instant := m.queue.head?.map Entry.fireAt

/-- A description of the machine, given a text for its clock. -/
def text (m : Machine τ ο σ) (clock : List Char) : List Char :=
  "ManualScheduler \x7b now: ".toList ++ clock ++ ", pending: ".toList ++ Decimal.digits m.pending ++
    " \x7d".toList

/-- Puts an entry behind all that fire no later. -/
def insert (e : Entry τ) : List (Entry τ) → List (Entry τ)
  | [] => [e]
  | x :: xs => if x.fireAt ≤ e.fireAt then x :: insert e xs else e :: x :: xs

theorem insert_perm (e : Entry τ) (q : List (Entry τ)) : (insert e q).Perm (e :: q) := by
  induction q with
  | nil => exact .refl _
  | cons x xs ih =>
    rw [insert]
    split
    · exact (ih.cons x).trans (.swap e x xs)
    · exact .refl _

theorem mem_insert {x e : Entry τ} {q : List (Entry τ)} : x ∈ insert e q ↔ x = e ∨ x ∈ q := by
  rw [(insert_perm e q).mem_iff, List.mem_cons]

theorem pairwise_insert {e : Entry τ} {q : List (Entry τ)}
    (h : q.Pairwise fun a b => a.fireAt ≤ b.fireAt) :
    (insert e q).Pairwise fun a b => a.fireAt ≤ b.fireAt := by
  induction q with
  | nil => exact List.pairwise_singleton _ _
  | cons x xs ih =>
    obtain ⟨hx, hxs⟩ := List.pairwise_cons.1 h
    rw [insert]
    split
    · rename_i hxe
      refine List.pairwise_cons.2 ⟨fun y hy => ?_, ih hxs⟩
      rcases mem_insert.1 hy with rfl | hy
      · exact hxe
      · exact hx y hy
    · rename_i hxe
      refine List.pairwise_cons.2 ⟨fun y hy => ?_, h⟩
      have hex : e.fireAt ≤ x.fireAt := by simp only [Instant.le_def] at hxe ⊢; omega
      rcases List.mem_cons.1 hy with rfl | hy
      · exact hex
      · have := hx y hy
        simp only [Instant.le_def] at hex this ⊢; omega

theorem length_insert (e : Entry τ) (q : List (Entry τ)) : (insert e q).length = q.length + 1 :=
  (insert_perm e q).length_eq

def put (s : Submission τ) (m : Machine τ ο σ) : Machine τ ο σ :=
  let e : Entry τ := ⟨s.fireAt, m.submissions, s.task⟩
  { m with
    submissions := m.submissions + 1
    queue := insert e m.queue
    journal := .submitted m.clock e :: m.journal }

def putAll (ss : List (Submission τ)) (m : Machine τ ο σ) : Machine τ ο σ :=
  ss.foldl (fun m s => m.put s) m

/-- Takes up what something other than a task did. -/
def absorb {κ : Type} (r : Reaction τ κ σ) (m : Machine τ ο σ) : Machine τ ο σ :=
  putAll r.submissions (m.withWorld r.world)

/-- Runs the entry `e`, with `rest` still in the queue. -/
def fire (h : Handler τ ο σ) (e : Entry τ) (rest : List (Entry τ)) (m : Machine τ ο σ) :
    Except Fault (Machine τ ο σ) :=
  let clock := max m.clock e.fireAt
  match h e.task clock m.world with
  | .error f => .error f
  | .ok r =>
    .ok (putAll r.submissions
      { m with
        clock
        queue := rest
        world := r.world
        journal := .fired clock e r.outcome :: m.journal })

/-- Runs tasks as long as the next one is due, `limit` tasks at most, and adds their number to
`ran`. -/
def runWhile (h : Handler τ ο σ) (due : Instant → Bool) :
    (limit ran : Nat) → Machine τ ο σ → Except Fault (Nat × Machine τ ο σ)
  | 0, ran, m => .ok (ran, m)
  | limit + 1, ran, m =>
    match m.queue with
    | [] => .ok (ran, m)
    | e :: rest =>
      if due e.fireAt then
        match m.fire h e rest with
        | .error f => .error f
        | .ok m => runWhile h due limit (ran + 1) m
      else .ok (ran, m)

/-- Runs the next task, if there is one. -/
def runNext (h : Handler τ ο σ) (m : Machine τ ο σ) : Except Fault (Nat × Machine τ ο σ) :=
  match m.queue with
  | [] => .ok (0, m)
  | e :: rest => (m.fire h e rest).map fun m => (1, m)

/-- Runs tasks until none is left, `limit` tasks at most. -/
def runAll (h : Handler τ ο σ) (limit : Nat) (m : Machine τ ο σ) :
    Except Fault (Nat × Machine τ ο σ) :=
  runWhile h (fun _ => true) limit 0 m

/-- Moves the clock up to `t`. -/
def moveTo (t : Instant) (m : Machine τ ο σ) : Machine τ ο σ := { m with clock := max m.clock t }

def isDue (deadline : Instant) (m : Machine τ ο σ) : Bool :=
  match m.queue with
  | [] => false
  | e :: _ => e.fireAt ≤ deadline

/-- Runs every task due at or before `deadline`, also those submitted meanwhile, and moves the
clock there; a fault if more than `limit` tasks are due. -/
def runUntil (h : Handler τ ο σ) (limit : Nat) (deadline : Instant) (m : Machine τ ο σ) :
    Except Fault (Nat × Machine τ ο σ) :=
  match runWhile h (fun t => t ≤ deadline) limit 0 m with
  | .error f => .error f
  | .ok (ran, m) => if m.isDue deadline then .error .unsettled else .ok (ran, m.moveTo deadline)

/-- The tasks fired after the journal had `seen` events, in firing order, with the clock. -/
def firedSince (seen : Nat) (m : Machine τ ο σ) : List (Instant × Entry τ × ο) :=
  (m.journal.take (m.journal.length - seen)).reverse.filterMap fun
    | .fired clock entry outcome => some (clock, entry, outcome)
    | .submitted _ _ => none

end Machine

/-- A kind of machine: what its tasks do, and how many of them a run to a deadline may take. -/
structure Dynamics (τ ο σ : Type) where
  handler : Handler τ ο σ
  allowance : Instant → Machine τ ο σ → Nat

/-- The ways to let time pass. -/
inductive ClockStep where
  | runNext
  | runUntil (deadline : Instant)
  | advance (span : Duration)
  | runAll (limit : Nat)

namespace Dynamics

variable {τ ο σ : Type}

def runUntil (d : Dynamics τ ο σ) (deadline : Instant) (m : Machine τ ο σ) :
    Except Fault (Nat × Machine τ ο σ) :=
  m.runUntil d.handler (d.allowance deadline m) deadline

def advance (d : Dynamics τ ο σ) (span : Duration) (m : Machine τ ο σ) :
    Except Fault (Nat × Machine τ ο σ) :=
  match m.clock.add? span with
  | none => .error .instantOverflow
  | some deadline => d.runUntil deadline m

/-- Lets time pass, and says how many tasks ran. -/
def step (d : Dynamics τ ο σ) (m : Machine τ ο σ) : ClockStep → Except Fault (Nat × Machine τ ο σ)
  | .runNext => m.runNext d.handler
  | .runUntil deadline => d.runUntil deadline m
  | .advance span => d.advance span m
  | .runAll limit => m.runAll d.handler limit

end Dynamics

end VirtualMesh

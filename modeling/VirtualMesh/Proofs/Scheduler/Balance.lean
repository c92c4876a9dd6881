import Mathlib.Algebra.GroupWithZero.Nat
import VirtualMesh.Proofs.Scheduler.Firing

/-!
# Nothing is lost

Between any two operations, every task that was ever submitted has run or waits, and none does both or is there
twice. What the operations return adds up to the number of tasks that ran, and what the machine shows of its queue
is right for the tasks that wait.
-/

namespace VirtualMesh

variable {τ ο σ : Type}

namespace Machine

/-- The machine shows the number and the fire times of the tasks in `waiting`, the least fire time first. -/
structure Shows (m : Machine τ ο σ) (waiting : List (Entry τ)) : Prop where
  pending : m.pending = waiting.length
  fireTimes : m.fireTimes.Perm (waiting.map Entry.fireAt)
  sorted : m.fireTimes.Pairwise (· ≤ ·)
  nothing : m.nextFireTime = none ↔ waiting = []
  next : ∀ t, m.nextFireTime = some t ↔ t ∈ waiting.map Entry.fireAt ∧ ∀ u ∈ waiting.map Entry.fireAt, t ≤ u

variable {m : Machine τ ο σ} {waiting : List (Entry τ)}

theorem Ledger.pairwise_fireTimes (hm : m.Ledger) : m.fireTimes.Pairwise (· ≤ ·) := by
  rw [fireTimes, List.pairwise_map]
  refine hm.sorted.imp fun hbefore => ?_
  unfold Entry.Before at hbefore
  rw [Instant.le_def]
  omega

theorem nextFireTime_eq (m : Machine τ ο σ) : m.nextFireTime = m.fireTimes.head? := by
  rw [nextFireTime, fireTimes, List.head?_map]

theorem head?_eq_some_iff_least {ts : List Instant} (hts : ts.Pairwise (· ≤ ·)) {t : Instant} :
    ts.head? = some t ↔ t ∈ ts ∧ ∀ u ∈ ts, t ≤ u := by
  cases ts with
  | nil => simp
  | cons x xs =>
    obtain ⟨hx, -⟩ := List.pairwise_cons.1 hts
    have hleast : ∀ u ∈ x :: xs, x ≤ u := List.forall_mem_cons.2 ⟨Int.le_refl _, hx⟩
    rw [List.head?_cons, Option.some.injEq]
    constructor
    · rintro rfl
      exact ⟨List.mem_cons_self, hleast⟩
    · rintro ⟨ht, hle⟩
      exact Instant.ext (Int.le_antisymm (hleast t ht) (hle x List.mem_cons_self))

theorem Ledger.shows (hm : m.Ledger) (hperm : m.queue.Perm waiting) : m.Shows waiting := by
  have htimes : m.fireTimes.Perm (waiting.map Entry.fireAt) := hperm.map Entry.fireAt
  refine ⟨hperm.length_eq, htimes, hm.pairwise_fireTimes, ?_, fun t => ?_⟩
  · rw [nextFireTime_eq, List.head?_eq_none_iff, ← List.length_eq_zero_iff, htimes.length_eq, List.length_map,
      List.length_eq_zero_iff]
  · rw [nextFireTime_eq, head?_eq_some_iff_least hm.pairwise_fireTimes, htimes.mem_iff]
    exact and_congr_right' (forall_congr' fun u => imp_congr_left htimes.mem_iff)

end Machine

namespace Dynamics

variable {d : Dynamics τ ο σ} {m m' : Machine τ ο σ} {o : Operation τ} {n : Nat}

theorem length_fired_operate (hrun : d.operate m o = .ok (n, m')) : m'.fired.length = m.fired.length + n := by
  obtain ⟨ys, hys, hran⟩ := fired_operate hrun
  rw [hys, List.length_append, ← hran.length_eq]
  rcases operate_cases hrun with ⟨s, rfl, rfl, -⟩ | ⟨-, rfl, -⟩
  · rfl
  · rfl

theorem sum_counts {os : List (Operation τ)} {counts : List Nat} (hrun : Script.run d.operate m os = .ok (counts, m')) :
    m'.fired.length = m.fired.length + counts.sum := by
  induction os generalizing m counts with
  | nil => cases hrun; rfl
  | cons o os ih =>
    obtain ⟨n, m₁, counts', hfirst, hrest, rfl⟩ := Script.run_cons_eq_ok.1 hrun
    rw [ih hrest, length_fired_operate hfirst, List.sum_cons, Nat.add_assoc]

end Dynamics

/-- Between operations, what was asked for from outside and by tasks that ran, in this order, has been submitted; of it, the
tasks that were taken up have run and the others are in the queue. -/
theorem nothing_lost (d : Dynamics τ ο σ) {start : Instant} {world : σ} {os : List (Operation τ)} {counts : List Nat}
    {m : Machine τ ο σ} (hrun : Script.run d.operate (Machine.startingAt start world) os = .ok (counts, m)) :
    m.submitted.map (fun x => x.2.submission) =
      Script.collect d.operate d.asked (Machine.startingAt start world) os ∧
    m.fired.map (fun x => x.2.1) =
      (Script.collect d.operate d.picks (Machine.startingAt start world) os).map Pick.entry ∧
    (m.submitted.map Prod.snd).Perm (m.fired.map (fun x => x.2.1) ++ m.queue) ∧
    (m.submitted.map fun x => x.2.number).Nodup ∧
    counts.sum = m.fired.length ∧
    ∀ waiting : List (Entry τ), (m.submitted.map Prod.snd).Perm (m.fired.map (fun x => x.2.1) ++ waiting) →
      m.Shows waiting := by
  have hm := Script.run_induct Dynamics.ledger_operate (Machine.Ledger.startingAt start world) hrun
  refine ⟨Dynamics.submitted_run hrun, ?_, hm.balanced.symm, ?_, ?_, fun waiting hwaiting => ?_⟩
  · have hfired := congrArg (List.map Prod.snd) (Dynamics.fired_run hrun)
    rwa [List.map_map, List.map_map] at hfired
  · rw [hm.numbered]
    exact List.nodup_range
  · rw [Dynamics.sum_counts hrun]
    exact (Nat.zero_add _).symm
  · exact hm.shows ((List.perm_append_left_iff _).1 (hm.balanced.trans hwaiting))

def Plan.halfway : List (Operation (Plan Nat)) :=
  journeys.map .put ++ [.time .runNext, .time (.runUntil (.later default 12))]

/-- Three of five tasks have run, two of them before tasks that were submitted earlier. -/
theorem nothing_lost_halfway : ∃ m, Script.run Plan.dynamics.operate (Plan.start default) Plan.halfway =
      .ok ([0, 0, 1, 2], m) ∧
    m.labels = [(0, 1), (10, 3), (10, 4)] ∧ m.queue.map (fun e => e.task.label) = [5, 2] ∧
    (m.submitted.map Prod.snd).Perm (m.fired.map (fun x => x.2.1) ++ m.queue) ∧ m.Shows m.queue ∧
    m.nextFireTime = some (.later default 15) := by
  obtain ⟨⟨counts, m⟩, hrun, hm⟩ := Script.exists_of_any
    (x := Script.run Plan.dynamics.operate (Plan.start default) Plan.halfway)
    (p := fun r => r.1 = [0, 0, 1, 2] && r.2.labels = [(0, 1), (10, 3), (10, 4)] &&
      r.2.queue.map (fun e => e.task.label) = [5, 2] && r.2.nextFireTime = some (.later default 15))
    (by decide +kernel)
  simp only [Bool.and_eq_true, decide_eq_true_eq] at hm
  obtain ⟨⟨⟨rfl, hlabels⟩, hqueue⟩, hnext⟩ := hm
  obtain ⟨-, -, hbalanced, -, -, hshows⟩ := nothing_lost Plan.dynamics hrun
  exact ⟨m, hrun, hlabels, hqueue, hbalanced, hshows m.queue hbalanced, hnext⟩

end VirtualMesh

import Mathlib.Data.List.Nodup
import VirtualMesh.Proofs.Scheduler.Picking

/-!
# The order of firing

Whenever a task is taken up, it comes first in firing order among all tasks that wait at that moment, and it
runs at its fire time or, if that has passed, at once; the clock never goes back. Tasks that submit nothing
and are put before any of them runs are therefore run in the stable order of their fire times.
-/

namespace VirtualMesh

variable {τ ο σ : Type}

/-- The task was submitted and has not run. -/
def Machine.Awaits (m : Machine τ ο σ) (e : Entry τ) : Prop :=
  (∃ t, (t, e) ∈ m.submitted) ∧ ∀ x ∈ m.fired, x.2.1 ≠ e

namespace Pick

/-- Of all tasks that wait, none comes before the one that is taken up. -/
def IsFirst (x : Pick τ ο σ) : Prop :=
  x.machine.Awaits x.entry ∧ ∀ e, x.machine.Awaits e → e = x.entry ∨ x.entry.Before e

def clocks (x : Pick τ ο σ) : List Instant := [x.machine.clock, x.clock]

end Pick

namespace Machine

variable {h : Handler τ ο σ} {due : Instant → Bool} {limit : Nat} {m m' : Machine τ ο σ} {xs : List (Pick τ ο σ)}

/-! ## What waits -/

theorem Ledger.awaits_iff (hm : m.Ledger) {e : Entry τ} : m.Awaits e ↔ e ∈ m.queue := by
  constructor
  · rintro ⟨⟨t, he⟩, hnot⟩
    have hmem := hm.balanced.mem_iff.2 (List.mem_map_of_mem (f := Prod.snd) he)
    rcases List.mem_append.1 hmem with hfired | hqueue
    · obtain ⟨x, hx, rfl⟩ := List.mem_map.1 hfired
      exact absurd rfl (hnot x hx)
    · exact hqueue
  · intro he
    refine ⟨hm.submitted_of_queue he, ?_⟩
    rintro x hx rfl
    have hdisjoint := (List.nodup_append.1 hm.nodup).2.2
    exact hdisjoint _ (List.mem_map_of_mem (f := fun x => x.2.1.number) hx) _ (List.mem_map_of_mem he) rfl

theorem Ledger.isFirst (hm : m.Ledger) {e : Entry τ} {rest : List (Entry τ)} (hq : m.queue = e :: rest) :
    Pick.IsFirst ⟨m, e⟩ := by
  have hsorted := hm.sorted
  rw [hq] at hsorted
  refine ⟨hm.awaits_iff.2 (hq ▸ List.mem_cons_self), fun x hx => ?_⟩
  have hmem := hm.awaits_iff.1 hx
  rw [hq] at hmem
  exact (List.mem_cons.1 hmem).imp id ((List.pairwise_cons.1 hsorted).1 x)

/-! ## The clock -/

theorem clock_fire {e : Entry τ} {rest : List (Entry τ)} (hfire : m.fire h e rest = .ok m') :
    m'.clock = max m.clock e.fireAt := by
  obtain ⟨r, -, rfl⟩ := fire_eq_ok.1 hfire
  rw [clock_putAll, clock_popped]

theorem Fires.clock_le (hfires : Fires h m xs m') : m.clock ≤ m'.clock ∧ ∀ t ∈ xs.flatMap Pick.clocks, t ≤ m'.clock := by
  induction hfires with
  | nil => exact ⟨Int.le_refl _, fun _ ht => nomatch ht⟩
  | @cons m m₁ m₂ e rest xs hq hfire _ ih =>
    obtain ⟨hclock, hxs⟩ := ih
    rw [clock_fire hfire] at hclock
    have hbefore := Instant.le_trans (Instant.le_max_left m.clock e.fireAt) hclock
    refine ⟨hbefore, ?_⟩
    rw [List.flatMap_cons]
    intro t ht
    rcases List.mem_append.1 ht with ht | ht
    · rcases List.mem_pair.1 ht with rfl | rfl
      · exact hbefore
      · exact hclock
    · exact hxs t ht

theorem pairwise_clocks_picks (h : Handler τ ο σ) (due : Instant → Bool) (limit : Nat) (m : Machine τ ο σ) :
    ((m.picks h due limit).flatMap Pick.clocks).Pairwise (· ≤ ·) ∧
      ∀ t ∈ (m.picks h due limit).flatMap Pick.clocks, m.clock ≤ t := by
  induction limit generalizing m with
  | zero => exact ⟨.nil, fun _ ht => nomatch ht⟩
  | succ limit ih =>
    cases hq : m.queue with
    | nil => rw [picks_of_nil hq]; exact ⟨.nil, fun _ ht => nomatch ht⟩
    | cons e rest =>
      cases hdue : due e.fireAt with
      | false => rw [picks_of_not_due hq hdue]; exact ⟨.nil, fun _ ht => nomatch ht⟩
      | true =>
        have hmax := Instant.le_max_left m.clock e.fireAt
        have hthis : ∀ t ∈ Pick.clocks ⟨m, e⟩, m.clock ≤ t ∧ t ≤ max m.clock e.fireAt := by
          intro t ht
          rcases List.mem_pair.1 ht with rfl | rfl
          · exact ⟨Int.le_refl _, hmax⟩
          · exact ⟨hmax, Int.le_refl _⟩
        have hpair : (Pick.clocks ⟨m, e⟩).Pairwise (· ≤ ·) := List.pairwise_pair.2 hmax
        cases hfire : m.fire h e rest with
        | error f =>
          -- the task that fails is the last one, and has seen the clock move up to it
          simp only [picks, hq, hdue, if_true, hfire, List.flatMap_cons, List.flatMap_nil, List.append_nil]
          exact ⟨hpair, fun t ht => (hthis t ht).1⟩
        | ok m₁ =>
          obtain ⟨hsorted, hle⟩ := ih m₁
          rw [clock_fire hfire] at hle
          rw [picks_of_fire hq hdue hfire, List.flatMap_cons]
          constructor
          · exact List.pairwise_append.2 ⟨hpair, hsorted, fun t ht u hu => Instant.le_trans (hthis t ht).2 (hle u hu)⟩
          · intro t ht
            rcases List.mem_append.1 ht with ht | ht
            · exact (hthis t ht).1
            · exact Instant.le_trans hmax (hle t ht)

end Machine

namespace Dynamics

variable {d : Dynamics τ ο σ} {m m' : Machine τ ο σ} {o : Operation τ} {n : Nat}

/-- All that the clock shows during an operation: at first, and then with each task. -/
def clocks (d : Dynamics τ ο σ) (m : Machine τ ο σ) (o : Operation τ) : List Instant :=
  m.clock :: (d.picks m o).flatMap Pick.clocks

theorem pairwise_clocks (d : Dynamics τ ο σ) (m : Machine τ ο σ) (o : Operation τ) :
    (d.clocks m o).Pairwise (· ≤ ·) ∧ ∀ t ∈ d.clocks m o, m.clock ≤ t := by
  obtain ⟨due, limit, hpicks⟩ := d.picks_eq m o
  obtain ⟨hsorted, hle⟩ := Machine.pairwise_clocks_picks d.handler due limit m
  rw [clocks, hpicks]
  exact ⟨List.pairwise_cons.2 ⟨hle, hsorted⟩, List.forall_mem_cons.2 ⟨Int.le_refl _, hle⟩⟩

theorem clocks_le (hrun : d.operate m o = .ok (n, m')) : ∀ t ∈ d.clocks m o, t ≤ m'.clock := by
  rcases operate_cases hrun with ⟨s, rfl, -, rfl⟩ | ⟨-, -, m₁, hfires, hmove⟩
  · intro t ht
    rw [List.mem_singleton.1 ht]
    exact Int.le_refl _
  · obtain ⟨hclock, hxs⟩ := hfires.clock_le
    have hlast : m₁.clock ≤ m'.clock := by
      rcases hmove with rfl | ⟨t, rfl⟩
      · exact Int.le_refl _
      · exact Instant.le_max_left _ _
    exact List.forall_mem_cons.2 ⟨Instant.le_trans hclock hlast, fun t ht => Instant.le_trans (hxs t ht) hlast⟩

theorem pairwise_collect_clocks (d : Dynamics τ ο σ) (m : Machine τ ο σ) (os : List (Operation τ)) :
    (Script.collect d.operate d.clocks m os).Pairwise (· ≤ ·) ∧
      ∀ t ∈ Script.collect d.operate d.clocks m os, m.clock ≤ t := by
  induction os generalizing m with
  | nil => exact ⟨.nil, fun _ ht => nomatch ht⟩
  | cons o os ih =>
    obtain ⟨hsorted, hle⟩ := d.pairwise_clocks m o
    rw [Script.collect]
    cases hrun : d.operate m o with
    | error f => rw [List.append_nil]; exact ⟨hsorted, hle⟩
    | ok r =>
      obtain ⟨hsorted', hle'⟩ := ih r.2
      have hlast := clocks_le hrun
      refine ⟨List.pairwise_append.2 ⟨hsorted, hsorted', fun t ht u hu => Instant.le_trans (hlast t ht) (hle' u hu)⟩, ?_⟩
      intro t ht
      rcases List.mem_append.1 ht with ht | ht
      · exact hle t ht
      · exact Instant.le_trans (hlast m.clock List.mem_cons_self) (hle' t ht)

theorem collect_clocks_le {os : List (Operation τ)} {counts : List Nat}
    (hrun : Script.run d.operate m os = .ok (counts, m')) :
    m.clock ≤ m'.clock ∧ ∀ t ∈ Script.collect d.operate d.clocks m os, t ≤ m'.clock := by
  induction os generalizing m counts with
  | nil => cases hrun; exact ⟨Int.le_refl _, fun _ ht => nomatch ht⟩
  | cons o os ih =>
    obtain ⟨n, m₁, counts', hfirst, hrest, -⟩ := Script.run_cons_eq_ok.1 hrun
    obtain ⟨hclock, hle⟩ := ih hrest
    have hall : ∀ t ∈ d.clocks m o, t ≤ m'.clock := fun t ht => Instant.le_trans (clocks_le hfirst t ht) hclock
    refine ⟨hall m.clock List.mem_cons_self, fun t ht => ?_⟩
    rw [Script.collect_cons hfirst] at ht
    exact (List.mem_append.1 ht).elim (hall t) (hle t)

end Dynamics

/-! ## Tasks that submit nothing -/

def Handler.SubmitsNothing (h : Handler τ ο σ) (task : τ) : Prop :=
  ∀ clock world r, h task clock world = .ok r → r.submissions = []

def Handler.Completes (h : Handler τ ο σ) (task : τ) : Prop := ∀ clock world, ∃ r, h task clock world = .ok r

namespace Machine

variable {h : Handler τ ο σ} {m m' : Machine τ ο σ} {e : Entry τ} {rest : List (Entry τ)} {xs : List (Pick τ ο σ)}

/-- The tasks that have run and those that are still in the queue, in one line. -/
def line (m : Machine τ ο σ) : List (Entry τ) := m.fired.map (fun x => x.2.1) ++ m.queue

theorem line_fire (hnothing : h.SubmitsNothing e.task) (hq : m.queue = e :: rest) (hfire : m.fire h e rest = .ok m') :
    m'.line = m.line ∧ m'.queue = rest := by
  obtain ⟨r, hr, rfl⟩ := fire_eq_ok.1 hfire
  rw [hnothing _ _ r hr, putAll_nil]
  refine ⟨?_, rfl⟩
  rw [line, line, fired_popped, queue_popped, hq, List.map_append, List.append_assoc]
  rfl

theorem Fires.line_eq (hfires : Fires h m xs m') (hnothing : ∀ e ∈ m.queue, h.SubmitsNothing e.task) :
    m'.line = m.line ∧ ∀ e ∈ m'.queue, h.SubmitsNothing e.task := by
  induction hfires with
  | nil => exact ⟨rfl, hnothing⟩
  | cons hq hfire _ ih =>
    rw [hq] at hnothing
    obtain ⟨he, hrest⟩ := List.forall_mem_cons.1 hnothing
    obtain ⟨hline, hqueue⟩ := line_fire he hq hfire
    obtain ⟨hline', hnothing'⟩ := ih (hqueue ▸ hrest)
    exact ⟨hline'.trans hline, hnothing'⟩

theorem exists_fires (hnothing : ∀ e ∈ m.queue, h.SubmitsNothing e.task) (hcompletes : ∀ e ∈ m.queue, h.Completes e.task) :
    ∃ xs m', Fires h m xs m' ∧ xs.length = m.queue.length ∧ m'.queue = [] := by
  generalize hq : m.queue = q at hnothing hcompletes
  induction q generalizing m with
  | nil => exact ⟨[], m, .nil, rfl, hq⟩
  | cons e rest ih =>
    obtain ⟨he, hrest⟩ := List.forall_mem_cons.1 hnothing
    obtain ⟨hdone, hdones⟩ := List.forall_mem_cons.1 hcompletes
    obtain ⟨r, hr⟩ := hdone (max m.clock e.fireAt) m.world
    have hfire : m.fire h e rest = .ok _ := fire_eq_ok.2 ⟨r, hr, rfl⟩
    obtain ⟨xs, m', hfires, hlength, hempty⟩ := ih (line_fire he hq hfire).2 hrest hdones
    exact ⟨_, m', .cons hq hfire hfires, congrArg (· + 1) hlength, hempty⟩

theorem line_run {d : Dynamics τ ο σ} {steps : List ClockStep} {counts : List Nat}
    (hrun : Script.run d.operate m (steps.map .time) = .ok (counts, m'))
    (hnothing : ∀ e ∈ m.queue, d.handler.SubmitsNothing e.task) : m'.line = m.line := by
  induction steps generalizing m counts with
  | nil => cases hrun; rfl
  | cons step steps ih =>
    obtain ⟨n, m₁, counts', hfirst, hrest, -⟩ := Script.run_cons_eq_ok.1 hrun
    rcases Dynamics.operate_cases hfirst with ⟨s, hs, -⟩ | ⟨-, -, m₂, hfires, hmove⟩
    · cases hs
    · obtain ⟨hline, hnothing'⟩ := hfires.line_eq hnothing
      rcases hmove with rfl | ⟨t, rfl⟩
      · rw [ih hrest hnothing', hline]
      · rw [ih hrest hnothing', ← hline]
        rfl

end Machine

/-! ## Stable sorting -/

def Submission.noLater (s s' : Submission τ) : Bool := s.fireAt ≤ s'.fireAt

theorem Submission.noLater_trans (a b c : Submission τ) (hab : a.noLater b = true) (hbc : b.noLater c = true) :
    a.noLater c = true :=
  decide_eq_true (Instant.le_trans (of_decide_eq_true hab) (of_decide_eq_true hbc))

theorem Submission.noLater_total (a b : Submission τ) : (a.noLater b || b.noLater a) = true := by
  simp only [noLater, Bool.or_eq_true, decide_eq_true_eq, Instant.le_def]
  omega

theorem Entry.Before.zipIdxLE {a b : Entry τ} (hab : a.Before b) :
    List.zipIdxLE Submission.noLater (a.submission, a.number) (b.submission, b.number) = true := by
  unfold Entry.Before at hab
  simp only [List.zipIdxLE, Submission.noLater, Entry.submission, decide_eq_true_eq, Instant.le_def]
  split
  · split
    · exact decide_eq_true (by omega)
    · rfl
  · omega

theorem snd_le_of_zipIdxLE {α : Type} {le : α → α → Bool} {a b : α × Nat} (hab : List.zipIdxLE le a b = true)
    (hba : List.zipIdxLE le b a = true) : a.2 ≤ b.2 := by
  have hle : le b.1 a.1 = true := by
    unfold List.zipIdxLE at hba
    by_cases h : le b.1 a.1 = true
    · exact h
    · rw [if_neg h] at hba; cases hba
  unfold List.zipIdxLE at hab
  by_cases h : le a.1 b.1 = true
  · rw [if_pos h, if_pos hle] at hab
    exact of_decide_eq_true hab
  · rw [if_neg h] at hab; cases hab

/-- Entries in firing order, with numbers as in the list of submissions, are the submissions in the stable order of their
fire times. -/
theorem mergeSort_eq_of_before {q : List (Entry τ)} {ss : List (Submission τ)}
    (hperm : (q.map fun e => (e.submission, e.number)).Perm ss.zipIdx) (hq : q.Pairwise Entry.Before) :
    ss.mergeSort Submission.noLater = q.map Entry.submission := by
  have hsorted : (q.map fun e => (e.submission, e.number)).Pairwise fun a b =>
      List.zipIdxLE Submission.noLater a b = true :=
    List.pairwise_map.2 (hq.imp Entry.Before.zipIdxLE)
  have hmerged : (ss.zipIdx.mergeSort (List.zipIdxLE Submission.noLater)).Pairwise fun a b =>
      List.zipIdxLE Submission.noLater a b = true :=
    List.pairwise_mergeSort (List.zipIdxLE_trans Submission.noLater_trans)
      (List.zipIdxLE_total Submission.noLater_total) _
  -- the numbers tell submissions for the same time apart, so there is only one list in this order
  have heq : ss.zipIdx.mergeSort (List.zipIdxLE Submission.noLater) = q.map fun e => (e.submission, e.number) := by
    refine List.Perm.eq_of_pairwise ?_ hmerged hsorted ((List.mergeSort_perm _ _).trans hperm.symm)
    intro a b ha hb hab hba
    have hnodup : (ss.zipIdx.map Prod.snd).Nodup := by rw [List.zipIdx_map_snd]; exact List.nodup_range' ..
    refine List.inj_on_of_nodup_map hnodup (List.mem_mergeSort.1 ha) (hperm.mem_iff.1 hb) ?_
    exact Nat.le_antisymm (snd_le_of_zipIdxLE hab hba) (snd_le_of_zipIdxLE hba hab)
  rw [← List.mergeSort_zipIdx, heq, List.map_map]
  rfl

namespace Machine

variable {m m' : Machine τ ο σ}

theorem Ledger.zipIdx_submitted (hm : m.Ledger) : (m.submitted.map fun x => x.2.submission).zipIdx =
    m.submitted.map fun x => (x.2.submission, x.2.number) := by
  have hlength : m.submitted.length = m.submissions := by
    have h := congrArg List.length hm.numbered
    rwa [List.length_map, List.length_range] at h
  rw [List.zipIdx_eq_zip_range', List.length_map, hlength, ← List.range_eq_range', ← hm.numbered, List.zip_map']

/-- Nothing has run so far, and all that was submitted submits nothing: then the queue is run in the stable order of fire
times. -/
theorem Ledger.fired_of_drained (hm : m.Ledger) (hfired : m.fired = []) {d : Dynamics τ ο σ}
    (hnothing : ∀ s ∈ m.submitted.map (fun x => x.2.submission), d.handler.SubmitsNothing s.task) {steps : List ClockStep}
    {counts : List Nat} (hrun : Script.run d.operate m (steps.map .time) = .ok (counts, m')) (hq : m'.queue = []) :
    m'.fired.map (fun x => x.2.1.submission) =
      (m.submitted.map fun x => x.2.submission).mergeSort Submission.noLater := by
  have hbalanced := hm.balanced
  rw [hfired, List.map_nil, List.nil_append] at hbalanced
  have hqueue : ∀ e ∈ m.queue, d.handler.SubmitsNothing e.task := by
    intro e he
    obtain ⟨x, hx, rfl⟩ := List.mem_map.1 (hbalanced.mem_iff.1 he)
    exact hnothing _ (List.mem_map_of_mem (f := fun x => x.2.submission) hx)
  -- the line stays as it is, and in the end all of it has run
  have hline := line_run hrun hqueue
  rw [line, line, hq, hfired, List.append_nil, List.map_nil, List.nil_append] at hline
  have hperm : (m.queue.map fun e => (e.submission, e.number)).Perm (m.submitted.map fun x => x.2.submission).zipIdx := by
    rw [hm.zipIdx_submitted]
    have h := hbalanced.map fun e => (e.submission, e.number)
    rwa [List.map_map] at h
  rw [mergeSort_eq_of_before hperm hm.sorted, ← hline, List.map_map]
  rfl

end Machine

namespace Dynamics

variable {d : Dynamics τ ο σ} {m : Machine τ ο σ} {start : Instant} {world : σ} {os : List (Operation τ)} {counts : List Nat}

theorem fired_collect {m₀ : Machine τ ο σ} (hrun : Script.run d.operate m₀ os = .ok (counts, m)) :
    ∃ ys, m.fired = m₀.fired ++ ys ∧ List.Forall₂ (Pick.Ran d.handler) (Script.collect d.operate d.picks m₀ os) ys := by
  induction os generalizing m₀ counts with
  | nil => cases hrun; exact ⟨[], (List.append_nil _).symm, .nil⟩
  | cons o os ih =>
    obtain ⟨n, m₁, counts', hfirst, hrest, -⟩ := Script.run_cons_eq_ok.1 hrun
    obtain ⟨ys, hys, hran⟩ := fired_operate hfirst
    obtain ⟨zs, hzs, hrans⟩ := ih hrest
    rw [Script.collect_cons hfirst]
    exact ⟨ys ++ zs, by rw [hzs, hys, List.append_assoc], List.rel_append hran hrans⟩

theorem ran_run (hrun : Script.run d.operate (Machine.startingAt start world) os = .ok (counts, m)) :
    List.Forall₂ (Pick.Ran d.handler) (Script.collect d.operate d.picks (Machine.startingAt start world) os) m.fired := by
  obtain ⟨ys, hys, hran⟩ := fired_collect hrun
  rwa [hys]

theorem fired_run (hrun : Script.run d.operate (Machine.startingAt start world) os = .ok (counts, m)) :
    m.fired.map (fun x => (x.1, x.2.1)) =
      (Script.collect d.operate d.picks (Machine.startingAt start world) os).map fun x => (x.clock, x.entry) :=
  Pick.map_of_ran (ran_run hrun)

theorem submitted_run (hrun : Script.run d.operate (Machine.startingAt start world) os = .ok (counts, m)) :
    m.submitted.map (fun x => x.2.submission) =
      Script.collect d.operate d.asked (Machine.startingAt start world) os :=
  Script.history_run submitted_operate hrun

theorem collect_asked {m₀ : Machine τ ο σ} (hrun : Script.run d.operate m₀ os = .ok (counts, m))
    (hnone : Script.collect d.operate d.picks m₀ os = []) :
    Script.collect d.operate d.asked m₀ os = os.filterMap Operation.put? := by
  induction os generalizing m₀ counts with
  | nil => rfl
  | cons o os ih =>
    obtain ⟨n, m₁, counts', hfirst, hrest, -⟩ := Script.run_cons_eq_ok.1 hrun
    rw [Script.collect_cons hfirst, List.append_eq_nil_iff] at hnone
    rw [Script.collect_cons hfirst, asked, hnone.1, ih hrest hnone.2, List.flatMap_nil, List.append_nil,
      List.filterMap_cons]
    cases o.put? <;> rfl

end Dynamics

/-- Any tasks, put at any times, run in firing order: each is the first of those that wait, and it is run while the clock
shows its fire time, or the time that it showed before if that is later. The clock never goes back. If nothing is submitted
but from outside and before any task runs, the tasks run in the stable order of their fire times. -/
theorem fires_in_order (d : Dynamics τ ο σ) (start : Instant) (world : σ) (os : List (Operation τ)) :
    (∀ x ∈ Script.collect d.operate d.picks (Machine.startingAt start world) os, x.IsFirst) ∧
    (Script.collect d.operate d.clocks (Machine.startingAt start world) os).Pairwise (· ≤ ·) ∧
    ∀ (counts : List Nat) (m : Machine τ ο σ), Script.run d.operate (Machine.startingAt start world) os = .ok (counts, m) →
      m.fired.map (fun x => (x.1, x.2.1)) = (Script.collect d.operate d.picks (Machine.startingAt start world) os).map
        (fun x => (max x.machine.clock x.entry.fireAt, x.entry)) ∧
      List.Forall₂ (Pick.Ran d.handler) (Script.collect d.operate d.picks (Machine.startingAt start world) os) m.fired ∧
      (∀ x ∈ m.fired, x.2.1.fireAt ≤ x.1) ∧
      (∀ t ∈ Script.collect d.operate d.clocks (Machine.startingAt start world) os, t ≤ m.clock) ∧
      (m.fired = [] → (∀ s ∈ os.filterMap Operation.put?, d.handler.SubmitsNothing s.task) →
        (∀ (steps : List ClockStep) (counts' : List Nat) (m' : Machine τ ο σ),
          Script.run d.operate m (steps.map .time) = .ok (counts', m') → m'.queue = [] →
            m'.fired.map (fun x => x.2.1.submission) = (os.filterMap Operation.put?).mergeSort Submission.noLater) ∧
        ((∀ s ∈ os.filterMap Operation.put?, d.handler.Completes s.task) → ∀ limit, m.pending ≤ limit →
          ∃ m', d.operate m (.time (.runAll limit)) = .ok (m.pending, m') ∧ m'.queue = [])) := by
  have hstart : (Machine.startingAt start world : Machine τ ο σ).Ledger := .startingAt start world
  refine ⟨fun x hx => ?_, (d.pairwise_collect_clocks _ os).1, fun counts m hrun => ?_⟩
  · obtain ⟨m, o, hm, hx⟩ := Script.of_mem_collect Dynamics.ledger_operate hstart hx
    obtain ⟨due, limit, hpicks⟩ := d.picks_eq m o
    obtain ⟨hledger, rest, hq⟩ := Machine.of_mem_picks (fun hm => hm.fire) hm (hpicks ▸ hx)
    exact hledger.isFirst hq
  · have hm := Script.run_induct Dynamics.ledger_operate hstart hrun
    have hfired := Dynamics.fired_run hrun
    refine ⟨hfired, Dynamics.ran_run hrun, fun x hx => ?_, (Dynamics.collect_clocks_le hrun).2,
      fun hnone hnothing => ?_⟩
    · have hmem : (x.1, x.2.1) ∈ m.fired.map fun x => (x.1, x.2.1) := List.mem_map_of_mem hx
      rw [hfired] at hmem
      obtain ⟨y, -, hy⟩ := List.mem_map.1 hmem
      obtain ⟨hclock, hentry⟩ := Prod.mk.inj hy
      rw [← hclock, ← hentry]
      exact Instant.le_max_right _ _
    · rw [hnone, List.map_nil] at hfired
      have hputs : m.submitted.map (fun x => x.2.submission) = os.filterMap Operation.put? :=
        (Dynamics.submitted_run hrun).trans (Dynamics.collect_asked hrun (List.map_eq_nil_iff.1 hfired.symm))
      rw [← hputs] at hnothing ⊢
      refine ⟨fun steps counts' m' hsteps hq => hm.fired_of_drained hnone hnothing hsteps hq, ?_⟩
      intro hcompletes limit hle
      -- all that waits was put from outside
      have hqueue : ∀ e ∈ m.queue, e.submission ∈ m.submitted.map fun x => x.2.submission := by
        intro e he
        obtain ⟨t, ht⟩ := hm.submitted_of_queue he
        exact List.mem_map_of_mem (f := fun x : Instant × Entry τ => x.2.submission) ht
      obtain ⟨xs, m', hfires, hlength, hempty⟩ := Machine.exists_fires (fun e he => hnothing _ (hqueue e he))
        fun e he => hcompletes _ (hqueue e he)
      refine ⟨m', ?_, hempty⟩
      refine Machine.runWhile_eq_ok.2 ⟨xs, hfires, hlength, fun _ _ => rfl, hle, .inr ?_⟩
      rw [Machine.nextFireTime, hempty]
      rfl

/-- Four tasks, one of them overdue and two for the same time. -/
def Plan.visits : List (Submission (Plan Nat)) :=
  [(20, 1), (10, 2), (20, 3), (-5, 4)].map fun x => ⟨.later default x.1, .mk x.2 []⟩

theorem fires_in_order_visits : ∃ m m', Script.run Plan.dynamics.operate (Plan.start default) (Plan.visits.map .put) =
      .ok ([0, 0, 0, 0], m) ∧ Plan.dynamics.operate m (.time (.runAll 4)) = .ok (4, m') ∧
    m'.labels = [(0, 4), (10, 2), (20, 1), (20, 3)] ∧
    m'.fired.map (fun x => x.2.1.submission) = Plan.visits.mergeSort Submission.noLater := by
  obtain ⟨⟨counts, m⟩, hrun, hm⟩ := Script.exists_of_any
    (x := Script.run Plan.dynamics.operate (Plan.start default) (Plan.visits.map .put))
    (p := fun r => r.1 = [0, 0, 0, 0] && r.2.pending = 4 && r.2.labels = [] &&
      (Plan.dynamics.operate r.2 (.time (.runAll 4))).toOption.any fun r =>
        r.2.labels = [(0, 4), (10, 2), (20, 1), (20, 3)]) (by decide +kernel)
  simp only [Bool.and_eq_true, decide_eq_true_eq] at hm
  obtain ⟨⟨⟨rfl, hpending⟩, hnone⟩, hall⟩ := hm
  have hleaf : ∀ s ∈ (Plan.visits.map Operation.put).filterMap Operation.put?, ∃ label, s.task = .mk label [] := by
    simp [Plan.visits, Operation.put?]
  have hnothing : ∀ s ∈ (Plan.visits.map Operation.put).filterMap Operation.put?,
      Plan.handler.SubmitsNothing s.task := by
    intro s hs clock world r hr
    obtain ⟨label, hlabel⟩ := hleaf s hs
    rw [hlabel] at hr
    cases hr
    rfl
  have hcompletes : ∀ s ∈ (Plan.visits.map Operation.put).filterMap Operation.put?, Plan.handler.Completes s.task := by
    intro s hs clock world
    obtain ⟨label, hlabel⟩ := hleaf s hs
    rw [hlabel]
    exact ⟨_, rfl⟩
  obtain ⟨-, -, hruns⟩ := fires_in_order Plan.dynamics default () (Plan.visits.map .put)
  obtain ⟨-, -, -, -, hdrains⟩ := hruns _ m hrun
  obtain ⟨hsorted, hdrained⟩ := hdrains (List.map_eq_nil_iff.1 hnone) hnothing
  obtain ⟨m', hrest, hempty⟩ := hdrained hcompletes 4 (Nat.le_of_eq hpending)
  rw [hpending] at hrest
  rw [hrest] at hall
  refine ⟨m, m', hrun, hrest, of_decide_eq_true hall, ?_⟩
  exact hsorted [.runAll 4] [4] m' (Script.run_cons_eq_ok.2 ⟨4, m', [], hrest, rfl, rfl⟩) hempty

end VirtualMesh

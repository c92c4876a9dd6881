import VirtualMesh.Scheduler.Basic

/-!
# The history of a machine

The journal tells which tasks were submitted and which ran. Whatever tasks do, the two accounts
balance: what was submitted has run or is in the queue, once (`Ledger`). If nothing is submitted
for a time that has passed, then every task runs at its fire time, and over the whole run tasks
fire in the order of fire times and, at one time, of submissions (`Punctual`).
-/

namespace VirtualMesh

theorem Instant.nanos_of_shift? {t u : Instant} {offset : Int} (h : t.shift? offset = some u) :
    u.nanos = t.nanos + offset := by
  simp only [shift?, ofNanos?] at h
  split at h
  · cases h; rfl
  · cases h

theorem Instant.nanos_of_add? {t u : Instant} {d : Duration} (h : t.add? d = some u) : u.nanos = t.nanos + d.nanos :=
  nanos_of_shift? h

variable {τ ο σ : Type}

namespace Event

def submission? : Event τ ο → Option (Instant × Entry τ)
  | .submitted clock entry => some (clock, entry)
  | .fired .. => none

def firing? : Event τ ο → Option (Instant × Entry τ × ο)
  | .submitted .. => none
  | .fired clock entry outcome => some (clock, entry, outcome)

end Event

/-- The order in which entries fire. -/
def Entry.Before (a b : Entry τ) : Prop :=
  a.fireAt.nanos < b.fireAt.nanos ∨ a.fireAt.nanos = b.fireAt.nanos ∧ a.number < b.number

theorem Entry.Before.trans {a b c : Entry τ} (hab : a.Before b) (hbc : b.Before c) :
    a.Before c := by
  unfold Entry.Before at *; omega

namespace Machine

def submitted (m : Machine τ ο σ) : List (Instant × Entry τ) :=
  m.journal.reverse.filterMap Event.submission?

/-- All tasks that ran, with the clock at each and what came of it, in order. -/
def fired (m : Machine τ ο σ) : List (Instant × Entry τ × ο) :=
  m.journal.reverse.filterMap Event.firing?

def entryOf (s : Submission τ) (m : Machine τ ο σ) : Entry τ := ⟨s.fireAt, m.submissions, s.task⟩

/-- The machine after the first entry `e` of its queue has run, before the tasks that it
submits are put. -/
def popped (e : Entry τ) (rest : List (Entry τ)) (outcome : ο) (world : σ) (m : Machine τ ο σ) :
    Machine τ ο σ :=
  { m with
    clock := max m.clock e.fireAt
    queue := rest
    world
    journal := .fired (max m.clock e.fireAt) e outcome :: m.journal }

theorem fire_eq_ok {h : Handler τ ο σ} {e : Entry τ} {rest : List (Entry τ)}
    {m m' : Machine τ ο σ} :
    m.fire h e rest = .ok m' ↔ ∃ r, h e.task (max m.clock e.fireAt) m.world = .ok r ∧
      m' = putAll r.submissions (m.popped e rest r.outcome r.world) := by
  constructor
  · intro hf
    simp only [fire] at hf
    split at hf
    · cases hf
    · rename_i r hr
      cases hf
      exact ⟨r, hr, rfl⟩
  · rintro ⟨r, hr, rfl⟩
    simp only [fire, hr]
    rfl

theorem putAll_nil (m : Machine τ ο σ) : putAll [] m = m := rfl

theorem putAll_cons (s : Submission τ) (ss : List (Submission τ)) (m : Machine τ ο σ) :
    putAll (s :: ss) m = putAll ss (m.put s) := rfl

/-! ## What each change does to the views -/

section
variable (m : Machine τ ο σ)

@[simp] theorem clock_put (s : Submission τ) : (m.put s).clock = m.clock := rfl

@[simp] theorem world_put (s : Submission τ) : (m.put s).world = m.world := rfl

@[simp] theorem submissions_put (s : Submission τ) :
    (m.put s).submissions = m.submissions + 1 := rfl

@[simp] theorem queue_put (s : Submission τ) :
    (m.put s).queue = insert (m.entryOf s) m.queue := rfl

@[simp] theorem submitted_put (s : Submission τ) :
    (m.put s).submitted = m.submitted ++ [(m.clock, m.entryOf s)] := by
  simp [submitted, put, Event.submission?, entryOf]

@[simp] theorem fired_put (s : Submission τ) : (m.put s).fired = m.fired := by
  simp [fired, put, Event.firing?]

variable (e : Entry τ) (rest : List (Entry τ)) (outcome : ο) (world : σ)

@[simp] theorem clock_popped :
    (m.popped e rest outcome world).clock = max m.clock e.fireAt := rfl

@[simp] theorem world_popped : (m.popped e rest outcome world).world = world := rfl

@[simp] theorem queue_popped : (m.popped e rest outcome world).queue = rest := rfl

@[simp] theorem submissions_popped :
    (m.popped e rest outcome world).submissions = m.submissions := rfl

@[simp] theorem submitted_popped :
    (m.popped e rest outcome world).submitted = m.submitted := by
  simp [submitted, popped, Event.submission?]

@[simp] theorem fired_popped :
    (m.popped e rest outcome world).fired =
      m.fired ++ [(max m.clock e.fireAt, e, outcome)] := by
  simp [fired, popped, Event.firing?]

@[simp] theorem clock_withWorld : (m.withWorld world).clock = m.clock := rfl

@[simp] theorem world_withWorld : (m.withWorld world).world = world := rfl

@[simp] theorem queue_withWorld : (m.withWorld world).queue = m.queue := rfl

@[simp] theorem submissions_withWorld : (m.withWorld world).submissions = m.submissions := rfl

@[simp] theorem submitted_withWorld : (m.withWorld world).submitted = m.submitted := rfl

@[simp] theorem fired_withWorld : (m.withWorld world).fired = m.fired := rfl

@[simp] theorem entryOf_withWorld (s : Submission τ) :
    (m.withWorld world).entryOf s = m.entryOf s := rfl

@[simp] theorem clock_moveTo (t : Instant) : (m.moveTo t).clock = max m.clock t := rfl

@[simp] theorem world_moveTo (t : Instant) : (m.moveTo t).world = m.world := rfl

@[simp] theorem queue_moveTo (t : Instant) : (m.moveTo t).queue = m.queue := rfl

@[simp] theorem submissions_moveTo (t : Instant) :
    (m.moveTo t).submissions = m.submissions := rfl

@[simp] theorem submitted_moveTo (t : Instant) : (m.moveTo t).submitted = m.submitted := rfl

@[simp] theorem fired_moveTo (t : Instant) : (m.moveTo t).fired = m.fired := rfl

end

section
variable (ss : List (Submission τ)) (m : Machine τ ο σ)

@[simp] theorem clock_putAll : (putAll ss m).clock = m.clock := by
  induction ss generalizing m with
  | nil => rfl
  | cons s ss ih => rw [putAll_cons, ih, clock_put]

@[simp] theorem world_putAll : (putAll ss m).world = m.world := by
  induction ss generalizing m with
  | nil => rfl
  | cons s ss ih => rw [putAll_cons, ih, world_put]

@[simp] theorem fired_putAll : (putAll ss m).fired = m.fired := by
  induction ss generalizing m with
  | nil => rfl
  | cons s ss ih => rw [putAll_cons, ih, fired_put]

theorem submitted_putAll : (putAll ss m).submitted =
    m.submitted ++ (ss.zipIdx m.submissions).map fun x => (m.clock, ⟨x.1.fireAt, x.2, x.1.task⟩) := by
  induction ss generalizing m with
  | nil => simp [putAll_nil]
  | cons s ss ih =>
    rw [putAll_cons, ih, submitted_put, submissions_put, clock_put, List.zipIdx_cons, List.map_cons,
      List.append_assoc]
    rfl

end

/-! ## The accounts balance -/

theorem before_insert {e : Entry τ} {q : List (Entry τ)} (hq : q.Pairwise Entry.Before)
    (he : ∀ x ∈ q, x.number < e.number) : (insert e q).Pairwise Entry.Before := by
  induction q with
  | nil => exact List.pairwise_singleton _ _
  | cons x xs ih =>
    obtain ⟨hx, hxs⟩ := List.pairwise_cons.1 hq
    have hn : x.number < e.number := he x List.mem_cons_self
    rw [insert]
    split
    · rename_i hle
      rw [Instant.le_def] at hle
      refine List.pairwise_cons.2 ⟨?_, ih hxs fun y hy => he y (List.mem_cons_of_mem _ hy)⟩
      intro y hy
      rcases mem_insert.1 hy with rfl | hy
      · unfold Entry.Before; omega
      · exact hx y hy
    · rename_i hle
      rw [Instant.le_def] at hle
      have hex : e.Before x := by unfold Entry.Before; omega
      refine List.pairwise_cons.2 ⟨?_, hq⟩
      intro y hy
      rcases List.mem_cons.1 hy with rfl | hy
      · exact hex
      · exact hex.trans (hx y hy)

/-- The accounts of a machine: submissions are numbered in order, each has run or is in the queue,
and the queue is in firing order. -/
structure Ledger (m : Machine τ ο σ) : Prop where
  numbered : m.submitted.map (fun x => x.2.number) = List.range m.submissions
  balanced : (m.fired.map (fun x => x.2.1) ++ m.queue).Perm (m.submitted.map Prod.snd)
  sorted : m.queue.Pairwise Entry.Before

namespace Ledger

variable {m : Machine τ ο σ}

theorem startingAt (clock : Instant) (world : σ) :
    (Machine.startingAt clock world : Machine τ ο σ).Ledger where
  numbered := rfl
  balanced := .refl _
  sorted := .nil

theorem withWorld (h : m.Ledger) (world : σ) : (m.withWorld world).Ledger :=
  ⟨h.numbered, h.balanced, h.sorted⟩

theorem moveTo (h : m.Ledger) (t : Instant) : (m.moveTo t).Ledger :=
  ⟨h.numbered, h.balanced, h.sorted⟩

theorem number_lt (h : m.Ledger) {x : Instant × Entry τ} (hx : x ∈ m.submitted) :
    x.2.number < m.submissions := by
  have hmem : x.2.number ∈ m.submitted.map fun x => x.2.number := List.mem_map_of_mem hx
  rw [h.numbered] at hmem
  exact List.mem_range.1 hmem

theorem submitted_of_queue (h : m.Ledger) {e : Entry τ} (he : e ∈ m.queue) :
    ∃ clock, (clock, e) ∈ m.submitted := by
  have hmem := h.balanced.mem_iff.1 (List.mem_append_right _ he)
  obtain ⟨⟨clock, _⟩, hx, rfl⟩ := List.mem_map.1 hmem
  exact ⟨clock, hx⟩

theorem submitted_of_fired (h : m.Ledger) {x : Instant × Entry τ × ο} (hx : x ∈ m.fired) :
    ∃ clock, (clock, x.2.1) ∈ m.submitted := by
  have hmem := h.balanced.mem_iff.1 (List.mem_append_left _ (List.mem_map_of_mem hx))
  obtain ⟨⟨clock, _⟩, hy, heq⟩ := List.mem_map.1 hmem
  exact ⟨clock, heq ▸ hy⟩

/-- If the first entry of the queue is not due, none is. -/
theorem not_due (h : m.Ledger) {t : Instant} (hdue : m.isDue t = false) {e : Entry τ} (he : e ∈ m.queue) :
    ¬ e.fireAt ≤ t := by
  have hsorted := h.sorted
  unfold isDue at hdue
  cases hq : m.queue with
  | nil => rw [hq] at he; cases he
  | cons x rest =>
    rw [hq] at hdue hsorted he
    simp only [decide_eq_false_iff_not, Instant.le_def] at hdue
    rw [Instant.le_def]
    rcases List.mem_cons.1 he with rfl | he
    · exact hdue
    · have hxe := (List.pairwise_cons.1 hsorted).1 e he
      unfold Entry.Before at hxe
      omega

theorem nodup (h : m.Ledger) :
    ((m.fired.map fun x => x.2.1.number) ++ m.queue.map Entry.number).Nodup := by
  have hp := h.balanced.map Entry.number
  rw [List.map_append, List.map_map, List.map_map] at hp
  refine hp.nodup_iff.2 ?_
  show (m.submitted.map fun x => x.2.number).Nodup
  rw [h.numbered]
  exact List.nodup_range

theorem put (h : m.Ledger) (s : Submission τ) : (m.put s).Ledger where
  numbered := by
    rw [submitted_put, List.map_append, h.numbered, submissions_put, List.range_succ]
    rfl
  balanced := by
    rw [fired_put, queue_put, submitted_put, List.map_append]
    have hi := (insert_perm (m.entryOf s) m.queue).append_left (m.fired.map fun x => x.2.1)
    exact (hi.trans List.perm_middle).trans
      ((h.balanced.cons _).trans (List.perm_append_singleton _ _).symm)
  sorted := by
    refine before_insert h.sorted ?_
    intro x hx
    obtain ⟨clock, hx⟩ := h.submitted_of_queue hx
    exact h.number_lt hx

theorem putAll (h : m.Ledger) (ss : List (Submission τ)) : (putAll ss m).Ledger := by
  induction ss generalizing m with
  | nil => exact h
  | cons s ss ih => exact ih (h.put s)

theorem popped (h : m.Ledger) {e : Entry τ} {rest : List (Entry τ)} (hq : m.queue = e :: rest)
    (outcome : ο) (world : σ) : (m.popped e rest outcome world).Ledger where
  numbered := by rw [submitted_popped, submissions_popped, h.numbered]
  balanced := by
    have hb := h.balanced
    rw [hq] at hb
    rw [fired_popped, queue_popped, submitted_popped, List.map_append, List.append_assoc]
    exact hb
  sorted := by
    have hs := h.sorted
    rw [hq] at hs
    exact (List.pairwise_cons.1 hs).2

end Ledger

/-! ## Nothing is late or early -/

/-- Nothing in the queue is overdue, every task ran at its fire time, and tasks ran and will run in
firing order. -/
structure Punctual (m : Machine τ ο σ) : Prop where
  pending : ∀ e ∈ m.queue, m.clock.nanos ≤ e.fireAt.nanos
  exact : ∀ x ∈ m.fired, x.1 = x.2.1.fireAt
  past : ∀ x ∈ m.fired, x.1.nanos ≤ m.clock.nanos
  ordered : (m.fired.map fun x => x.2.1).Pairwise Entry.Before
  next : ∀ x ∈ m.fired, ∀ e ∈ m.queue, x.2.1.Before e
  /-- Submissions were made one after another, none for a time before it. -/
  submittedInOrder : m.submitted.Pairwise fun x y => x.1.nanos ≤ y.1.nanos
  submittedBefore : ∀ x ∈ m.submitted, x.1.nanos ≤ m.clock.nanos
  submittedAhead : ∀ x ∈ m.submitted, x.1.nanos ≤ x.2.fireAt.nanos

namespace Punctual

variable {m : Machine τ ο σ}

theorem startingAt (clock : Instant) (world : σ) :
    (Machine.startingAt clock world : Machine τ ο σ).Punctual where
  pending _ he := nomatch he
  exact _ hx := nomatch hx
  past _ hx := nomatch hx
  ordered := .nil
  next _ hx := nomatch hx
  submittedInOrder := .nil
  submittedBefore _ hx := nomatch hx
  submittedAhead _ hx := nomatch hx

theorem withWorld (h : m.Punctual) (world : σ) : (m.withWorld world).Punctual :=
  ⟨h.pending, h.exact, h.past, h.ordered, h.next, h.submittedInOrder, h.submittedBefore,
    h.submittedAhead⟩

theorem put (h : m.Punctual) (hl : m.Ledger) {s : Submission τ}
    (hs : m.clock.nanos ≤ s.fireAt.nanos) : (m.put s).Punctual where
  pending := by
    intro e he
    rcases mem_insert.1 he with rfl | he
    · exact hs
    · exact h.pending e he
  exact := by rw [fired_put]; exact h.exact
  past := by rw [fired_put]; exact h.past
  ordered := by rw [fired_put]; exact h.ordered
  next := by
    rw [fired_put]
    intro x hx e he
    rcases mem_insert.1 he with rfl | he
    · have hfire : x.2.1.fireAt.nanos ≤ m.clock.nanos := h.exact x hx ▸ h.past x hx
      obtain ⟨clock, hx⟩ := hl.submitted_of_fired hx
      have hnumber := hl.number_lt hx
      show x.2.1.fireAt.nanos < s.fireAt.nanos ∨
        x.2.1.fireAt.nanos = s.fireAt.nanos ∧ x.2.1.number < m.submissions
      simp only at hnumber
      omega
    · exact h.next x hx e he
  submittedInOrder := by
    rw [submitted_put]
    refine List.pairwise_append.2 ⟨h.submittedInOrder, List.pairwise_singleton _ _, ?_⟩
    intro x hx y hy
    rw [List.mem_singleton.1 hy]
    exact h.submittedBefore x hx
  submittedBefore := by
    rw [submitted_put]
    intro x hx
    rcases List.mem_append.1 hx with hx | hx
    · exact h.submittedBefore x hx
    · obtain rfl := List.mem_singleton.1 hx
      exact Int.le_refl _
  submittedAhead := by
    rw [submitted_put]
    intro x hx
    rcases List.mem_append.1 hx with hx | hx
    · exact h.submittedAhead x hx
    · rw [List.mem_singleton.1 hx]; exact hs

theorem putAll (h : m.Punctual) (hl : m.Ledger) {ss : List (Submission τ)}
    (hs : ∀ s ∈ ss, m.clock.nanos ≤ s.fireAt.nanos) : (putAll ss m).Punctual := by
  induction ss generalizing m with
  | nil => exact h
  | cons s ss ih =>
    obtain ⟨hs, hss⟩ := List.forall_mem_cons.1 hs
    exact ih (h.put hl hs) (hl.put s) hss

theorem max_clock (h : m.Punctual) {e : Entry τ} {rest : List (Entry τ)}
    (hq : m.queue = e :: rest) : max m.clock e.fireAt = e.fireAt := by
  have he := h.pending e (hq ▸ List.mem_cons_self)
  ext
  rw [Instant.nanos_max]
  omega

theorem popped (h : m.Punctual) (hl : m.Ledger) {e : Entry τ} {rest : List (Entry τ)}
    (hq : m.queue = e :: rest) (outcome : ο) (world : σ) :
    (m.popped e rest outcome world).Punctual := by
  have hclock := h.max_clock hq
  have he : e ∈ m.queue := hq ▸ List.mem_cons_self
  have hnow := h.pending e he
  have hsorted := hl.sorted
  rw [hq] at hsorted
  obtain ⟨hfirst, -⟩ := List.pairwise_cons.1 hsorted
  constructor
  case pending =>
    intro x hx
    have hex := hfirst x hx
    rw [clock_popped, hclock]
    unfold Entry.Before at hex
    omega
  case exact =>
    rw [fired_popped]
    intro x hx
    rcases List.mem_append.1 hx with hx | hx
    · exact h.exact x hx
    · rw [List.mem_singleton.1 hx]; exact hclock
  case past =>
    rw [fired_popped, clock_popped, hclock]
    intro x hx
    rcases List.mem_append.1 hx with hx | hx
    · exact Int.le_trans (h.past x hx) hnow
    · obtain rfl := List.mem_singleton.1 hx
      exact Int.le_refl _
  case ordered =>
    rw [fired_popped, List.map_append]
    refine List.pairwise_append.2 ⟨h.ordered, List.pairwise_singleton _ _, ?_⟩
    intro x hx y hy
    obtain ⟨z, hz, rfl⟩ := List.mem_map.1 hx
    rw [List.map_singleton] at hy
    rw [List.mem_singleton.1 hy]
    exact h.next z hz e he
  case next =>
    rw [fired_popped]
    intro x hx y hy
    rcases List.mem_append.1 hx with hx | hx
    · exact h.next x hx y (hq ▸ List.mem_cons_of_mem _ hy)
    · rw [List.mem_singleton.1 hx]; exact hfirst y hy
  case submittedInOrder => rw [submitted_popped]; exact h.submittedInOrder
  case submittedBefore =>
    rw [submitted_popped, clock_popped, hclock]
    exact fun x hx => Int.le_trans (h.submittedBefore x hx) hnow
  case submittedAhead => rw [submitted_popped]; exact h.submittedAhead

/-- The clock may move on to a time before which nothing is due. -/
theorem moveTo (h : m.Punctual) (hl : m.Ledger) {t : Instant} (hdue : m.isDue t = false) :
    (m.moveTo t).Punctual := by
  have hclock : m.clock.nanos ≤ (max m.clock t).nanos := by rw [Instant.nanos_max]; omega
  refine ⟨?_, h.exact, ?_, h.ordered, h.next, h.submittedInOrder, ?_, h.submittedAhead⟩
  · intro e he
    have hle := h.pending e he
    have hlater := hl.not_due hdue he
    rw [Instant.le_def] at hlater
    rw [clock_moveTo, Instant.nanos_max]
    omega
  · exact fun x hx => Int.le_trans (h.past x hx) hclock
  · exact fun x hx => Int.le_trans (h.submittedBefore x hx) hclock

end Punctual

end Machine

end VirtualMesh

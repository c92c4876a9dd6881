import VirtualMesh.Proofs.Scheduler.Picking

/-!
# Runs task by task

A run to a deadline does what repeated runs of the next task do, up to the first moment at which none is due, and
then moves the clock. A longer run can therefore be cut at any deadline on the way.
-/

namespace VirtualMesh

variable {τ ο σ : Type}

namespace Instant

variable {t u : Instant} {a b c : Duration}

theorem add?_eq_some : t.add? a = some u ↔ u.nanos = t.nanos + a.nanos := by
  refine ⟨nanos_of_add?, fun hu => ?_⟩
  have hrange : -2 ^ 63 * 10 ^ 9 ≤ t.nanos + a.nanos ∧ t.nanos + a.nanos < 2 ^ 63 * 10 ^ 9 := by
    rw [← hu]; exact ⟨u.ge, u.lt⟩
  simp only [add?, shift?, ofNanos?, hrange, and_self, dite_true, Option.some.injEq]
  exact ext hu.symm

theorem le_of_add? (hadd : t.add? a = some u) : t ≤ u := by
  rw [le_def, nanos_of_add? hadd]
  omega

/-- A span can be gone in two parts, and no part of the way leaves the time line. -/
theorem exists_add?_of_add? (hc : c.nanos = a.nanos + b.nanos) (hadd : t.add? c = some u) :
    ∃ v, t.add? a = some v ∧ v.add? b = some u := by
  have hu := nanos_of_add? hadd
  have hge := t.ge
  have hlt := u.lt
  refine ⟨⟨t.nanos + a.nanos, by omega, by omega⟩, add?_eq_some.2 rfl, add?_eq_some.2 ?_⟩
  show u.nanos = t.nanos + a.nanos + b.nanos
  omega

end Instant

namespace Machine

variable {h : Handler τ ο σ} {limit ran k n : Nat} {t : Instant} {m m' : Machine τ ο σ} {xs : List (Pick τ ο σ)}

/-! ## Calls for the next task -/

/-- Runs the next task `k` times, and adds up how many there were. -/
def nexts (h : Handler τ ο σ) : Nat → Machine τ ο σ → Except Fault (Nat × Machine τ ο σ)
  | 0, m => .ok (0, m)
  | k + 1, m => m.runNext h >>= fun r => (nexts h k r.2).map fun s => (r.1 + s.1, s.2)

theorem nexts_of_nil (hq : m.queue = []) : m.nexts h k = .ok (0, m) := by
  induction k with
  | zero => rfl
  | succ k ih => simp only [nexts, runNext, hq, bind, Except.bind, ih, Except.map]

theorem runWhile_eq_nexts : m.runWhile h (fun _ => true) k ran = (m.nexts h k).map fun r => (ran + r.1, r.2) := by
  induction k generalizing m ran with
  | zero => rfl
  | succ k ih =>
    cases hq : m.queue with
    | nil => simp only [runWhile, hq, nexts_of_nil hq, Except.map, Nat.add_zero]
    | cons e rest =>
      simp only [runWhile, nexts, runNext, hq, if_true]
      cases m.fire h e rest with
      | error f => rfl
      | ok m₁ =>
        simp only [bind, Except.bind, Except.map, ih]
        cases m₁.nexts h k with
        | error f => rfl
        | ok r => simp only [Nat.add_assoc]

theorem runAll_eq_nexts (h : Handler τ ο σ) (k : Nat) (m : Machine τ ο σ) : m.runAll h k = m.nexts h k := by
  rw [runAll, runWhile_eq_nexts]
  cases m.nexts h k with
  | error f => rfl
  | ok r => simp only [Except.map, Nat.zero_add]

theorem nextFireTime_any_true : m.nextFireTime.any (fun _ => true) = false ↔ m.queue = [] := by
  unfold nextFireTime
  cases m.queue <;> simp

theorem nexts_eq_ok : m.nexts h k = .ok (n, m') ↔
    ∃ xs, Fires h m xs m' ∧ xs.length = n ∧ n ≤ k ∧ (n = k ∨ m'.queue = []) := by
  rw [← runAll_eq_nexts, runAll, runWhile_eq_ok]
  simp only [nextFireTime_any_true, implies_true, true_and]

theorem nexts_self : m.nexts h k = .ok (k, m') ↔ ∃ xs, Fires h m xs m' ∧ xs.length = k := by
  rw [nexts_eq_ok]
  constructor
  · rintro ⟨xs, hfires, hlength, -⟩
    exact ⟨xs, hfires, hlength⟩
  · rintro ⟨xs, hfires, hlength⟩
    exact ⟨xs, hfires, hlength, Nat.le_refl k, .inl rfl⟩

theorem Fires.exists_getElem (hfires : Fires h m xs m') {j : Nat} (hj : j < xs.length) :
    ∃ m₁ rest, m.nexts h j = .ok (j, m₁) ∧ m₁.queue = xs[j].entry :: rest := by
  have hsplit : Fires h m (xs.take j ++ xs.drop j) m' := by rwa [List.take_append_drop]
  obtain ⟨m₁, hbefore, hafter⟩ := Fires.append_iff.1 hsplit
  rw [List.drop_eq_getElem_cons hj] at hafter
  generalize xs[j] = x at hafter ⊢
  cases hafter with
  | @cons _ _ _ e rest _ hq =>
    refine ⟨m₁, rest, nexts_self.2 ⟨_, hbefore, ?_⟩, hq⟩
    rw [List.length_take]
    omega

theorem Fires.settles (hfires : Fires h m xs m') (hxs : ∀ x ∈ xs, x.entry.fireAt ≤ t) (hdue : m'.isDue t = false) :
    Settles h t m m' := by
  induction hfires with
  | nil => exact .done hdue
  | cons hq hfire _ ih =>
    obtain ⟨he, hxs⟩ := List.forall_mem_cons.1 hxs
    exact .fire hq he hfire (ih hxs hdue)

theorem isDue_eq_false : m.isDue t = false ↔ ∀ u, m.nextFireTime = some u → t < u := by
  rw [isDue_eq]
  cases m.nextFireTime with
  | none => simp
  | some u =>
    have hnot : decide (u ≤ t) = false ↔ t < u := decide_eq_false_iff_not.trans Int.not_le
    simpa using hnot

theorem Fires.moveTo_eq (hfires : Fires h m xs m') (hxs : ∀ x ∈ xs, x.entry.fireAt ≤ t) (hdue : m'.isDue t = false) :
    m'.moveTo t = { m' with clock := max m.clock t } := by
  rw [moveTo, (hfires.settles hxs hdue).max_clock]

/-- A run to `t` takes as many tasks as it takes calls until nothing is due at `t` for the first time. -/
theorem runUntil_eq_ok_iff_nexts : m.runUntil h limit t = .ok (k, m') ↔ k ≤ limit ∧ ∃ m₁, m.nexts h k = .ok (k, m₁) ∧
    (∀ u, m₁.nextFireTime = some u → t < u) ∧
    (∀ j, j < k → ∃ m₂ u, m.nexts h j = .ok (j, m₂) ∧ m₂.nextFireTime = some u ∧ u ≤ t) ∧
    m' = { m₁ with clock := max m.clock t } := by
  rw [runUntil_eq_ok]
  constructor
  · rintro ⟨xs, m₁, hfires, rfl, hxs, hle, hdue, rfl⟩
    refine ⟨hle, m₁, nexts_self.2 ⟨xs, hfires, rfl⟩, isDue_eq_false.1 hdue, fun j hj => ?_, hfires.moveTo_eq hxs hdue⟩
    obtain ⟨m₂, rest, hnexts, hq⟩ := hfires.exists_getElem hj
    exact ⟨m₂, _, hnexts, by rw [nextFireTime, hq]; rfl, hxs _ (List.getElem_mem hj)⟩
  · rintro ⟨hle, m₁, hnexts, hnone, hbefore, rfl⟩
    obtain ⟨xs, hfires, rfl⟩ := nexts_self.1 hnexts
    have hdue := isDue_eq_false.2 hnone
    have hxs : ∀ x ∈ xs, x.entry.fireAt ≤ t := by
      intro x hx
      obtain ⟨j, hj, rfl⟩ := List.getElem_of_mem hx
      obtain ⟨m₂, rest, hnexts', hq⟩ := hfires.exists_getElem hj
      -- the machine before the task is the one after `j` calls
      obtain ⟨m₃, u, hsame, hnext, hu⟩ := hbefore j hj
      cases hnexts'.symm.trans hsame
      rw [nextFireTime, hq] at hnext
      cases hnext
      exact hu
    exact ⟨xs, m₁, hfires, rfl, hxs, hle, hdue, (hfires.moveTo_eq hxs hdue).symm⟩

theorem runAll_eq_ok_iff_nexts : m.runAll h limit = .ok (k, m') ↔ m.nexts h k = .ok (k, m') ∧
    (k = limit ∨ k < limit ∧ m'.queue = []) ∧ ∀ j, j < k → ∃ m₁, m.nexts h j = .ok (j, m₁) ∧ m₁.queue ≠ [] := by
  rw [runAll_eq_nexts, nexts_eq_ok]
  constructor
  · rintro ⟨xs, hfires, rfl, hle, hend⟩
    refine ⟨nexts_self.2 ⟨xs, hfires, rfl⟩, ?_, fun j hj => ?_⟩
    · rcases hend with hlimit | hempty
      · exact .inl hlimit
      · exact (Nat.eq_or_lt_of_le hle).imp id fun hlt => ⟨hlt, hempty⟩
    · obtain ⟨m₁, rest, hnexts, hq⟩ := hfires.exists_getElem hj
      exact ⟨m₁, hnexts, by rw [hq]; exact List.cons_ne_nil _ _⟩
  · rintro ⟨hnexts, hend, -⟩
    obtain ⟨xs, hfires, rfl⟩ := nexts_self.1 hnexts
    rcases hend with hlimit | ⟨hlt, hempty⟩
    · exact ⟨xs, hfires, rfl, Nat.le_of_eq hlimit, .inl hlimit⟩
    · exact ⟨xs, hfires, rfl, Nat.le_of_lt hlt, .inr hempty⟩

/-- A run to a deadline is so many calls for the next task that nothing more is due, no more of them than that, and then a
move of the clock; a run of all tasks is so many calls that nothing is left, or as many as are allowed. -/
theorem runs_as_nexts (h : Handler τ ο σ) (m : Machine τ ο σ) :
    (∀ (limit k : Nat) (t : Instant) (m' : Machine τ ο σ), m.runUntil h limit t = .ok (k, m') ↔
      k ≤ limit ∧ ∃ m₁, m.nexts h k = .ok (k, m₁) ∧ (∀ u, m₁.nextFireTime = some u → t < u) ∧
        (∀ j, j < k → ∃ m₂ u, m.nexts h j = .ok (j, m₂) ∧ m₂.nextFireTime = some u ∧ u ≤ t) ∧
        m' = { m₁ with clock := max m.clock t }) ∧
    (∀ limit, m.runAll h limit = m.nexts h limit) ∧
    ∀ (limit k : Nat) (m' : Machine τ ο σ), m.runAll h limit = .ok (k, m') ↔
      m.nexts h k = .ok (k, m') ∧ (k = limit ∨ k < limit ∧ m'.queue = []) ∧
        ∀ j, j < k → ∃ m₁, m.nexts h j = .ok (j, m₁) ∧ m₁.queue ≠ [] :=
  ⟨fun _ _ _ _ => runUntil_eq_ok_iff_nexts, fun _ => runAll_eq_nexts h _ m, fun _ _ _ => runAll_eq_ok_iff_nexts⟩

def journeying : Machine (Plan Nat) Unit Unit := putAll Plan.journeys (Plan.start default)

/-- Three of the five tasks are due by the deadline. -/
theorem runs_as_nexts_journeying : ∃ m₁ m₂,
    journeying.runUntil Plan.handler 9 (.later default 12) =
      .ok (3, { m₁ with clock := max journeying.clock (.later default 12) }) ∧
    journeying.nexts Plan.handler 3 = .ok (3, m₁) ∧ m₁.nextFireTime = some (.later default 15) ∧
    m₁.labels = [(0, 1), (10, 3), (10, 4)] ∧
    journeying.runAll Plan.handler 9 = .ok (5, m₂) ∧ journeying.nexts Plan.handler 5 = .ok (5, m₂) ∧ m₂.queue = [] ∧
    m₂.labels = [(0, 1), (10, 3), (10, 4), (15, 5), (20, 2)] := by
  obtain ⟨huntil, -, hall⟩ := runs_as_nexts Plan.handler journeying
  obtain ⟨⟨k, m'⟩, hrun, hk⟩ := Script.exists_of_any (x := journeying.runUntil Plan.handler 9 (.later default 12))
    (p := fun r => r.1 = 3 && r.2.labels = [(0, 1), (10, 3), (10, 4)] &&
      r.2.nextFireTime = some (.later default 15)) (by decide +kernel)
  obtain ⟨⟨n, m₂⟩, hrest, hn⟩ := Script.exists_of_any (x := journeying.runAll Plan.handler 9)
    (p := fun r => r.1 = 5 && r.2.labels = [(0, 1), (10, 3), (10, 4), (15, 5), (20, 2)]) (by decide +kernel)
  simp only [Bool.and_eq_true, decide_eq_true_eq] at hk hn
  obtain ⟨⟨rfl, hlabels⟩, hnext⟩ := hk
  obtain ⟨rfl, hlabels'⟩ := hn
  obtain ⟨-, m₁, hnexts, -, -, rfl⟩ := (huntil 9 3 _ m').1 hrun
  obtain ⟨hnexts', hend, -⟩ := (hall 9 5 m₂).1 hrest
  have hempty : m₂.queue = [] := (hend.resolve_left (by decide)).2
  exact ⟨m₁, m₂, hrun, hnexts, hnext, hlabels, hrest, hnexts', hempty, hlabels'⟩

/-! ## Cutting a run in two -/

/-- A run to a deadline returns if it may take as many tasks as are due; how many more does not matter (`RunsTo.unique`). -/
def RunsTo (h : Handler τ ο σ) (t : Instant) (m : Machine τ ο σ) (k : Nat) (m' : Machine τ ο σ) : Prop :=
  ∃ limit, m.runUntil h limit t = .ok (k, m')

def Advances (h : Handler τ ο σ) (span : Duration) (m : Machine τ ο σ) (k : Nat) (m' : Machine τ ο σ) : Prop :=
  ∃ limit, Dynamics.advance ⟨h, fun _ _ => limit⟩ span m = .ok (k, m')

theorem runsTo_iff : RunsTo h t m k m' ↔ ∃ xs m₁, Fires h m xs m₁ ∧ xs.length = k ∧
    (∀ x ∈ xs, x.entry.fireAt ≤ t) ∧ m₁.isDue t = false ∧ m' = m₁.moveTo t := by
  constructor
  · rintro ⟨limit, hrun⟩
    obtain ⟨xs, m₁, hfires, hlength, hxs, -, hdue, hmove⟩ := runUntil_eq_ok.1 hrun
    exact ⟨xs, m₁, hfires, hlength, hxs, hdue, hmove⟩
  · rintro ⟨xs, m₁, hfires, hlength, hxs, hdue, hmove⟩
    exact ⟨k, runUntil_eq_ok.2 ⟨xs, m₁, hfires, hlength, hxs, Nat.le_refl k, hdue, hmove⟩⟩

theorem RunsTo.unique {m₁ m₂ : Machine τ ο σ} (hrun : RunsTo h t m k m₁) (hrun' : RunsTo h t m n m₂) : k = n ∧ m₁ = m₂ := by
  obtain ⟨limit, hrun⟩ := hrun
  obtain ⟨limit', hrun'⟩ := hrun'
  obtain ⟨xs, m₃, hfires, hlength, hxs, hle, hrest⟩ := runUntil_eq_ok.1 hrun
  obtain ⟨ys, m₄, hfires', hlength', hys, hle', hrest'⟩ := runUntil_eq_ok.1 hrun'
  -- both return as well if they may take more tasks, and then they are one run
  have hboth : m.runUntil h (limit + limit') t = .ok (k, m₁) :=
    runUntil_eq_ok.2 ⟨xs, m₃, hfires, hlength, hxs, Nat.le_add_right_of_le hle, hrest⟩
  have hboth' : m.runUntil h (limit + limit') t = .ok (n, m₂) :=
    runUntil_eq_ok.2 ⟨ys, m₄, hfires', hlength', hys, Nat.le_add_left_of_le hle', hrest'⟩
  cases hboth.symm.trans hboth'
  exact ⟨rfl, rfl⟩

theorem advances_iff {span : Duration} : Advances h span m k m' ↔ ∃ t, m.clock.add? span = some t ∧ RunsTo h t m k m' := by
  simp only [Advances, Dynamics.advance]
  cases m.clock.add? span with
  | none => simp
  | some t => simp only [Option.some.injEq, exists_eq_left']; rfl

theorem moveTo_moveTo {t₁ t₂ : Instant} (ht : t₁ ≤ t₂) (m : Machine τ ο σ) : (m.moveTo t₁).moveTo t₂ = m.moveTo t₂ := by
  have hclock : max (max m.clock t₁) t₂ = max m.clock t₂ := by
    ext
    rw [Instant.le_def] at ht
    rw [Instant.nanos_max, Instant.nanos_max, Instant.nanos_max]
    omega
  simp only [moveTo, hclock]

theorem fire_moveTo {e : Entry τ} (he : ¬ e.fireAt ≤ t) (rest : List (Entry τ)) :
    (m.moveTo t).fire h e rest = m.fire h e rest := by
  have hclock : max (max m.clock t) e.fireAt = max m.clock e.fireAt := by
    ext
    rw [Instant.le_def] at he
    rw [Instant.nanos_max, Instant.nanos_max, Instant.nanos_max]
    omega
  simp only [fire, moveTo, hclock]

/-- Where nothing is due at `t`, the same tasks run whether the clock has moved to `t` or not. -/
theorem fires_moveTo_iff (hdue : m.isDue t = false) {x : Pick τ ο σ} :
    Fires h (m.moveTo t) (x :: xs) m' ↔ x.machine = m.moveTo t ∧ Fires h m (⟨m, x.entry⟩ :: xs) m' := by
  have hnot : ∀ {e rest}, m.queue = e :: rest → ¬ e.fireAt ≤ t := by
    intro e rest hq
    simpa [isDue, hq] using hdue
  constructor
  · intro hfires
    cases hfires with
    | cons hq hfire hrest => exact ⟨rfl, .cons hq (fire_moveTo (hnot hq) _ ▸ hfire) hrest⟩
  · obtain ⟨machine, e⟩ := x
    rintro ⟨rfl, hfires⟩
    cases hfires with
    | cons hq hfire hrest => exact .cons hq ((fire_moveTo (hnot hq) _).trans hfire) hrest

variable {t₁ t₂ : Instant}

/-- A run to a later deadline does not tell whether the clock was moved first. -/
theorem runsTo_moveTo (hdue : m.isDue t₁ = false) (ht : t₁ ≤ t₂) :
    RunsTo h t₂ (m.moveTo t₁) k m' ↔ RunsTo h t₂ m k m' := by
  rw [runsTo_iff, runsTo_iff]
  constructor
  · rintro ⟨xs, m₂, hfires, rfl, hxs, hdue₂, rfl⟩
    cases xs with
    | nil => cases hfires; exact ⟨[], m, .nil, rfl, hxs, hdue₂, moveTo_moveTo ht m⟩
    -- the first task is not due at `t₁`, so that it moves the clock past `t₁` in either case
    | cons x xs => exact ⟨⟨m, x.entry⟩ :: xs, m₂, ((fires_moveTo_iff hdue).1 hfires).2, rfl,
        List.forall_mem_cons.2 (List.forall_mem_cons.1 hxs), hdue₂, rfl⟩
  · rintro ⟨xs, m₂, hfires, rfl, hxs, hdue₂, rfl⟩
    cases xs with
    | nil => cases hfires; exact ⟨[], m.moveTo t₁, .nil, rfl, hxs, hdue₂, (moveTo_moveTo ht m).symm⟩
    | cons x xs =>
      refine ⟨⟨m.moveTo t₁, x.entry⟩ :: xs, m₂, (fires_moveTo_iff hdue).2 ⟨rfl, ?_⟩, rfl,
        List.forall_mem_cons.2 (List.forall_mem_cons.1 hxs), hdue₂, rfl⟩
      cases hfires with
      | cons hq hfire hrest => exact .cons hq hfire hrest

theorem isDue_of_le (ht : t₁ ≤ t₂) (hdue : m.isDue t₂ = false) : m.isDue t₁ = false := by
  unfold isDue at *
  cases hq : m.queue with
  | nil => rfl
  | cons e rest =>
    rw [hq] at hdue
    exact decide_eq_false fun he => of_decide_eq_false hdue (Instant.le_trans he ht)

/-- What runs up to the first task that is not due at `t`, and what runs from there on. -/
theorem Fires.cut (hfires : Fires h m xs m') (hdue : m'.isDue t = false) : ∃ ys zs m₁, xs = ys ++ zs ∧
    Fires h m ys m₁ ∧ Fires h m₁ zs m' ∧ (∀ y ∈ ys, y.entry.fireAt ≤ t) ∧ m₁.isDue t = false := by
  induction hfires with
  | @nil m => exact ⟨[], [], m, rfl, .nil, .nil, List.forall_mem_nil _, hdue⟩
  | @cons m m₁ m₂ e rest xs hq hfire hrest ih =>
    by_cases he : e.fireAt ≤ t
    · obtain ⟨ys, zs, m₃, rfl, hys, hzs, hearly, hnone⟩ := ih hdue
      exact ⟨⟨m, e⟩ :: ys, zs, m₃, rfl, .cons hq hfire hys, hzs, List.forall_mem_cons.2 ⟨he, hearly⟩, hnone⟩
    · exact ⟨[], ⟨m, e⟩ :: xs, m, rfl, .nil, .cons hq hfire hrest, List.forall_mem_nil _, by simp [isDue, hq, he]⟩

theorem runsTo_iff_cut (ht : t₁ ≤ t₂) : RunsTo h t₂ m k m' ↔
    ∃ k₁ m₁ k₂, RunsTo h t₁ m k₁ m₁ ∧ RunsTo h t₂ m₁ k₂ m' ∧ k₁ + k₂ = k := by
  constructor
  · intro hrun
    obtain ⟨xs, m₂, hfires, rfl, hxs, hdue, rfl⟩ := runsTo_iff.1 hrun
    obtain ⟨ys, zs, m₁, rfl, hys, hzs, hearly, hnone⟩ := hfires.cut (isDue_of_le ht hdue)
    refine ⟨ys.length, m₁.moveTo t₁, zs.length, ?_, (runsTo_moveTo hnone ht).2 ?_, List.length_append.symm⟩
    · exact runsTo_iff.2 ⟨ys, m₁, hys, rfl, hearly, hnone, rfl⟩
    · exact runsTo_iff.2 ⟨zs, m₂, hzs, rfl, (List.forall_mem_append.1 hxs).2, hdue, rfl⟩
  · rintro ⟨k₁, m₁, k₂, hfirst, hsecond, rfl⟩
    obtain ⟨ys, m₂, hys, rfl, hearly, hnone, rfl⟩ := runsTo_iff.1 hfirst
    obtain ⟨zs, m₃, hzs, rfl, hlate, hdue, rfl⟩ := runsTo_iff.1 ((runsTo_moveTo hnone ht).1 hsecond)
    have hxs : ∀ x ∈ ys ++ zs, x.entry.fireAt ≤ t₂ :=
      List.forall_mem_append.2 ⟨fun y hy => Instant.le_trans (hearly y hy) ht, hlate⟩
    exact runsTo_iff.2 ⟨ys ++ zs, m₃, Fires.append_iff.2 ⟨m₂, hys, hzs⟩, List.length_append, hxs, hdue, rfl⟩

theorem RunsTo.clock_eq (hrun : RunsTo h t m k m') : m'.clock = max m.clock t := by
  obtain ⟨xs, m₁, hfires, -, hxs, hdue, rfl⟩ := runsTo_iff.1 hrun
  rw [hfires.moveTo_eq hxs hdue]

theorem advances_iff_cut {a b c : Duration} (hc : c.nanos = a.nanos + b.nanos) : Advances h c m k m' ↔
    ∃ k₁ m₁ k₂, Advances h a m k₁ m₁ ∧ Advances h b m₁ k₂ m' ∧ k₁ + k₂ = k := by
  -- the first run ends with the clock at its deadline, from where the second span leads to the common end
  have hclock : ∀ {t₁ : Instant} {k₁ : Nat} {m₁ : Machine τ ο σ}, m.clock.add? a = some t₁ → RunsTo h t₁ m k₁ m₁ →
      m₁.clock = t₁ := by
    intro t₁ k₁ m₁ hadd hrun
    have hnanos := Instant.nanos_of_add? hadd
    rw [hrun.clock_eq]
    ext
    rw [Instant.nanos_max]
    omega
  constructor
  · intro hrun
    obtain ⟨t₂, hadd, hrun⟩ := advances_iff.1 hrun
    obtain ⟨t₁, hfirst, hsecond⟩ := Instant.exists_add?_of_add? hc hadd
    obtain ⟨k₁, m₁, k₂, hrun₁, hrun₂, hk⟩ := (runsTo_iff_cut (Instant.le_of_add? hsecond)).1 hrun
    refine ⟨k₁, m₁, k₂, advances_iff.2 ⟨t₁, hfirst, hrun₁⟩, advances_iff.2 ⟨t₂, ?_, hrun₂⟩, hk⟩
    rw [hclock hfirst hrun₁, hsecond]
  · rintro ⟨k₁, m₁, k₂, hrun₁, hrun₂, hk⟩
    obtain ⟨t₁, hfirst, hrun₁⟩ := advances_iff.1 hrun₁
    obtain ⟨t₂, hsecond, hrun₂⟩ := advances_iff.1 hrun₂
    rw [hclock hfirst hrun₁] at hsecond
    refine advances_iff.2 ⟨t₂, Instant.add?_eq_some.2 ?_, (runsTo_iff_cut (Instant.le_of_add? hsecond)).2
      ⟨k₁, m₁, k₂, hrun₁, hrun₂, hk⟩⟩
    rw [Instant.nanos_of_add? hsecond, Instant.nanos_of_add? hfirst]
    omega

/-- A run to a deadline comes to the same if it is cut at an earlier one, and so does an advance if it is made in two
parts. -/
theorem cut_unseen (h : Handler τ ο σ) (m : Machine τ ο σ) :
    (∀ (t₁ t₂ : Instant) (k : Nat) (m' : Machine τ ο σ), t₁ ≤ t₂ → (RunsTo h t₂ m k m' ↔
      ∃ k₁ m₁ k₂, RunsTo h t₁ m k₁ m₁ ∧ RunsTo h t₂ m₁ k₂ m' ∧ k₁ + k₂ = k)) ∧
    ∀ (a b c : Duration) (k : Nat) (m' : Machine τ ο σ), c.nanos = a.nanos + b.nanos → (Advances h c m k m' ↔
      ∃ k₁ m₁ k₂, Advances h a m k₁ m₁ ∧ Advances h b m₁ k₂ m' ∧ k₁ + k₂ = k) :=
  ⟨fun _ _ _ _ => runsTo_iff_cut, fun _ _ _ _ _ => advances_iff_cut⟩

/-- Where the first part ends no task runs, and the tasks that follow do not see it. -/
theorem cut_unseen_journeying : ∃ m₁ m₂,
    RunsTo Plan.handler (.later default 12) journeying 3 m₁ ∧ RunsTo Plan.handler (.later default 20) m₁ 2 m₂ ∧
    RunsTo Plan.handler (.later default 20) journeying 5 m₂ ∧
    Advances Plan.handler ⟨12, by decide⟩ journeying 3 m₁ ∧ Advances Plan.handler ⟨8, by decide⟩ m₁ 2 m₂ ∧
    Advances Plan.handler ⟨20, by decide⟩ journeying 5 m₂ ∧
    m₁.clock = .later default 12 ∧ m₂.labels = [(0, 1), (10, 3), (10, 4), (15, 5), (20, 2)] := by
  obtain ⟨hruns, hadvances⟩ := cut_unseen Plan.handler journeying
  obtain ⟨⟨k₁, m₁⟩, hrun₁, hk⟩ := Script.exists_of_any (x := journeying.runUntil Plan.handler 9 (.later default 12))
    (p := fun r => r.1 = 3 && (r.2.runUntil Plan.handler 9 (.later default 20)).toOption.any fun r =>
      r.1 = 2 && r.2.labels = [(0, 1), (10, 3), (10, 4), (15, 5), (20, 2)]) (by decide +kernel)
  rw [Bool.and_eq_true, decide_eq_true_eq] at hk
  obtain ⟨rfl, hrest⟩ := hk
  obtain ⟨⟨k₂, m₂⟩, hrun₂, hk⟩ := Script.exists_of_any hrest
  rw [Bool.and_eq_true, decide_eq_true_eq, decide_eq_true_eq] at hk
  obtain ⟨rfl, hlabels⟩ := hk
  have hfirst : RunsTo Plan.handler (.later default 12) journeying 3 m₁ := ⟨9, hrun₁⟩
  have hsecond : RunsTo Plan.handler (.later default 20) m₁ 2 m₂ := ⟨9, hrun₂⟩
  have hclock : m₁.clock = .later default 12 := hfirst.clock_eq
  have hadvance : Advances Plan.handler ⟨12, by decide⟩ journeying 3 m₁ := advances_iff.2 ⟨_, by decide, hfirst⟩
  have hadvance' : Advances Plan.handler ⟨8, by decide⟩ m₁ 2 m₂ :=
    advances_iff.2 ⟨.later default 20, by rw [hclock]; decide, hsecond⟩
  exact ⟨m₁, m₂, hfirst, hsecond, (hruns _ _ 5 m₂ (by decide)).2 ⟨3, m₁, 2, hfirst, hsecond, rfl⟩, hadvance, hadvance',
    (hadvances _ _ _ 5 m₂ (by decide)).2 ⟨3, m₁, 2, hadvance, hadvance', rfl⟩, hclock, hlabels⟩

end Machine

end VirtualMesh

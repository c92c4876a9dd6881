import VirtualMesh.Proofs.Scheduler.Starting

/-!
# Tasks as they are taken up

A run takes one task after another from the front of the queue. `picks` lists them, each with the machine
that it is taken from, and `Fires` says how one machine passes into the next. Whatever lets time pass is such
a sequence of tasks, and perhaps a move of the clock behind it.
-/

namespace VirtualMesh

variable {τ ο σ : Type}

namespace Instant

theorem le_trans {t u v : Instant} (htu : t ≤ u) (huv : u ≤ v) : t ≤ v := Int.le_trans htu huv

theorem le_max_left (t u : Instant) : t ≤ max t u := by
  rw [le_def, nanos_max]; omega

theorem le_max_right (t u : Instant) : u ≤ max t u := by
  rw [le_def, nanos_max]; omega

end Instant

/-- A task that is taken up, and the machine from whose queue it is taken. -/
structure Pick (τ ο σ : Type) where
  machine : Machine τ ο σ
  entry : Entry τ

namespace Pick

def clock (x : Pick τ ο σ) : Instant := max x.machine.clock x.entry.fireAt

def submissions (h : Handler τ ο σ) (x : Pick τ ο σ) : List (Submission τ) :=
  match h x.entry.task x.clock x.machine.world with
  | .error _ => []
  | .ok r => r.submissions

/-- What becomes of a task in the history: it is run in the world before it, with the clock at its fire time or, if that
has passed, where the clock is. -/
def Ran (h : Handler τ ο σ) (x : Pick τ ο σ) (y : Instant × Entry τ × ο) : Prop :=
  ∃ r, h x.entry.task (max x.machine.clock x.entry.fireAt) x.machine.world = .ok r ∧
    y = (max x.machine.clock x.entry.fireAt, x.entry, r.outcome)

theorem map_of_ran {h : Handler τ ο σ} {xs : List (Pick τ ο σ)} {ys : List (Instant × Entry τ × ο)}
    (hran : List.Forall₂ (Ran h) xs ys) : ys.map (fun y => (y.1, y.2.1)) = xs.map fun x => (x.clock, x.entry) := by
  induction hran with
  | nil => rfl
  | cons hx _ ih =>
    obtain ⟨r, -, rfl⟩ := hx
    rw [List.map_cons, List.map_cons, ih]
    rfl

end Pick

def Entry.submission (e : Entry τ) : Submission τ := ⟨e.fireAt, e.task⟩

namespace Machine

variable {h : Handler τ ο σ} {due : Instant → Bool} {limit ran n : Nat} {m m' : Machine τ ο σ}
  {xs ys : List (Pick τ ο σ)}

/-- What `runWhile` takes up, the task that it fails at included. -/
def picks (h : Handler τ ο σ) (due : Instant → Bool) : Nat → Machine τ ο σ → List (Pick τ ο σ)
  | 0, _ => []
  | limit + 1, m =>
    match m.queue with
    | [] => []
    | e :: rest =>
      if due e.fireAt then
        ⟨m, e⟩ ::
          match m.fire h e rest with
          | .error _ => []
          | .ok m => picks h due limit m
      else []

/-- The tasks of `xs` run one after another, and each leaves the machine to the next. -/
inductive Fires (h : Handler τ ο σ) : Machine τ ο σ → List (Pick τ ο σ) → Machine τ ο σ → Prop
  | nil {m : Machine τ ο σ} : Fires h m [] m
  | cons {m m₁ m₂ : Machine τ ο σ} {e : Entry τ} {rest : List (Entry τ)} {xs : List (Pick τ ο σ)}
      (hq : m.queue = e :: rest) (hfire : m.fire h e rest = .ok m₁) (hrest : Fires h m₁ xs m₂) :
      Fires h m (⟨m, e⟩ :: xs) m₂

theorem Fires.append_iff : Fires h m (xs ++ ys) m' ↔ ∃ m₁, Fires h m xs m₁ ∧ Fires h m₁ ys m' := by
  constructor
  · intro hfires
    induction xs generalizing m with
    | nil => exact ⟨m, .nil, hfires⟩
    | cons x xs ih =>
      cases hfires with
      | cons hq hfire hrest =>
        obtain ⟨m₁, hxs, hys⟩ := ih hrest
        exact ⟨m₁, .cons hq hfire hxs, hys⟩
  · rintro ⟨m₁, hxs, hys⟩
    induction hxs with
    | nil => exact hys
    | cons hq hfire _ ih => exact .cons hq hfire (ih hys)

/-! ## Runs as sequences of tasks -/

section
variable {e : Entry τ} {rest : List (Entry τ)}

theorem picks_of_nil (hq : m.queue = []) : m.picks h due limit = [] := by
  cases limit with
  | zero => rfl
  | succ limit => simp only [picks, hq]

theorem picks_of_not_due (hq : m.queue = e :: rest) (hdue : due e.fireAt = false) : m.picks h due limit = [] := by
  cases limit with
  | zero => rfl
  | succ limit => simp only [picks, hq, hdue, Bool.false_eq_true, if_false]

theorem picks_of_fire (hq : m.queue = e :: rest) (hdue : due e.fireAt = true) (hfire : m.fire h e rest = .ok m') :
    m.picks h due (limit + 1) = ⟨m, e⟩ :: m'.picks h due limit := by
  simp only [picks, hq, hdue, if_true, hfire]

theorem mem_picks_succ {x : Pick τ ο σ} (hx : x ∈ m.picks h due (limit + 1)) : ∃ e rest, m.queue = e :: rest ∧
    due e.fireAt = true ∧ (x = ⟨m, e⟩ ∨ ∃ m₁, m.fire h e rest = .ok m₁ ∧ x ∈ m₁.picks h due limit) := by
  cases hq : m.queue with
  | nil => rw [picks_of_nil hq] at hx; cases hx
  | cons e rest =>
    cases hdue : due e.fireAt with
    | false => rw [picks_of_not_due hq hdue] at hx; cases hx
    | true =>
      refine ⟨e, rest, rfl, hdue, ?_⟩
      cases hfire : m.fire h e rest with
      | error f =>
        simp only [picks, hq, hdue, if_true, hfire] at hx
        exact .inl (List.mem_singleton.1 hx)
      | ok m₁ =>
        rw [picks_of_fire hq hdue hfire] at hx
        exact (List.mem_cons.1 hx).imp id fun hx => ⟨m₁, rfl, hx⟩

end

theorem due_of_mem_picks {x : Pick τ ο σ} (hx : x ∈ m.picks h due limit) : due x.entry.fireAt = true := by
  induction limit generalizing m with
  | zero => cases hx
  | succ limit ih =>
    obtain ⟨e, rest, -, hdue, rfl | ⟨m₁, -, hx⟩⟩ := mem_picks_succ hx
    · exact hdue
    · exact ih hx

theorem fires_of_runWhile (hrun : m.runWhile h due limit ran = .ok (n, m')) :
    Fires h m (m.picks h due limit) m' ∧ n = ran + (m.picks h due limit).length ∧
      (m.picks h due limit).length ≤ limit ∧
        ((m.picks h due limit).length = limit ∨ m'.nextFireTime.any due = false) := by
  induction limit generalizing m ran with
  | zero =>
    cases hrun
    exact ⟨.nil, rfl, Nat.le_refl 0, .inl rfl⟩
  | succ limit ih =>
    simp only [runWhile] at hrun
    cases hq : m.queue with
    | nil =>
      rw [hq] at hrun
      cases hrun
      rw [picks_of_nil hq]
      exact ⟨.nil, rfl, Nat.zero_le _, .inr (by simp [nextFireTime, hq])⟩
    | cons e rest =>
      simp only [hq] at hrun
      cases hdue : due e.fireAt with
      | false =>
        simp only [hdue, Bool.false_eq_true, if_false] at hrun
        cases hrun
        rw [picks_of_not_due hq hdue]
        exact ⟨.nil, rfl, Nat.zero_le _, .inr (by simpa [nextFireTime, hq] using hdue)⟩
      | true =>
        simp only [hdue, if_true] at hrun
        cases hfire : m.fire h e rest with
        | error f => rw [hfire] at hrun; cases hrun
        | ok m₁ =>
          rw [hfire] at hrun
          obtain ⟨hfires, hn, hle, hend⟩ := ih hrun
          rw [picks_of_fire hq hdue hfire, List.length_cons]
          refine ⟨.cons hq hfire hfires, ?_, ?_, hend.imp (congrArg (· + 1)) id⟩
          · rw [hn]; omega
          · omega

theorem Fires.runWhile_eq (hfires : Fires h m xs m') (hdue : ∀ x ∈ xs, due x.entry.fireAt = true)
    (hle : xs.length ≤ limit) (hend : xs.length = limit ∨ m'.nextFireTime.any due = false) :
    m.runWhile h due limit ran = .ok (ran + xs.length, m') := by
  induction hfires generalizing limit ran with
  | @nil m =>
    -- there is room for another task, so the next one is not due
    cases limit with
    | zero => rfl
    | succ limit =>
      rcases hend with hend | hend
      · cases hend
      · simp only [runWhile]
        cases hq : m.queue with
        | nil => rfl
        | cons e rest =>
          have hnot : due e.fireAt = false := by simpa [nextFireTime, hq] using hend
          simp only [hnot, Bool.false_eq_true, if_false]
          rfl
  | @cons m m₁ m₂ e rest xs hq hfire _ ih =>
    cases limit with
    | zero => cases hle
    | succ limit =>
      obtain ⟨he, hxs⟩ := List.forall_mem_cons.1 hdue
      rw [List.length_cons] at hle hend
      simp only [runWhile, hq, he, if_true, hfire]
      rw [ih hxs (by omega) (hend.imp (fun h => by omega) id), List.length_cons, Nat.add_right_comm, Nat.add_assoc]

/-- A run comes to an end if the tasks that are due run one after another, and it ends when `limit` of them have run
or the next one is not due. -/
theorem runWhile_eq_ok : m.runWhile h due limit 0 = .ok (n, m') ↔ ∃ xs, Fires h m xs m' ∧ xs.length = n ∧
    (∀ x ∈ xs, due x.entry.fireAt = true) ∧ n ≤ limit ∧ (n = limit ∨ m'.nextFireTime.any due = false) := by
  constructor
  · intro hrun
    obtain ⟨hfires, hn, hle, hend⟩ := fires_of_runWhile hrun
    rw [Nat.zero_add] at hn
    subst hn
    exact ⟨_, hfires, rfl, fun x hx => due_of_mem_picks hx, hle, hend⟩
  · rintro ⟨xs, hfires, rfl, hdue, hle, hend⟩
    rw [hfires.runWhile_eq hdue hle hend, Nat.zero_add]

theorem isDue_eq (t : Instant) (m : Machine τ ο σ) : m.isDue t = m.nextFireTime.any fun u => u ≤ t := by
  unfold isDue nextFireTime
  cases m.queue <;> rfl

theorem runUntil_eq_ok {t : Instant} : m.runUntil h limit t = .ok (n, m') ↔ ∃ xs m₁, Fires h m xs m₁ ∧ xs.length = n ∧
    (∀ x ∈ xs, x.entry.fireAt ≤ t) ∧ n ≤ limit ∧ m₁.isDue t = false ∧ m' = m₁.moveTo t := by
  constructor
  · intro hrun
    simp only [runUntil] at hrun
    cases hwhile : m.runWhile h (fun u => u ≤ t) limit 0 with
    | error f => rw [hwhile] at hrun; cases hrun
    | ok r =>
      obtain ⟨k, m₁⟩ := r
      simp only [hwhile] at hrun
      split at hrun
      · cases hrun
      · rename_i hdue
        cases hrun
        obtain ⟨xs, hfires, hlength, hxs, hle, -⟩ := runWhile_eq_ok.1 hwhile
        exact ⟨xs, m₁, hfires, hlength, fun x hx => of_decide_eq_true (hxs x hx), hle, by simpa using hdue, rfl⟩
  · rintro ⟨xs, m₁, hfires, hlength, hxs, hle, hdue, rfl⟩
    have hwhile : m.runWhile h (fun u => u ≤ t) limit 0 = .ok (n, m₁) :=
      runWhile_eq_ok.2 ⟨xs, hfires, hlength, fun x hx => decide_eq_true (hxs x hx), hle, .inr (isDue_eq t m₁ ▸ hdue)⟩
    simp only [runUntil, hwhile, hdue, Bool.false_eq_true, if_false]

/-! ## What a run does to the machine -/

section
variable {P : Machine τ ο σ → Prop}
  (hP : ∀ {m m' : Machine τ ο σ} {e : Entry τ} {rest : List (Entry τ)}, P m → m.queue = e :: rest →
    m.fire h e rest = .ok m' → P m')
include hP

theorem Fires.induct (hm : P m) (hfires : Fires h m xs m') : P m' := by
  induction hfires with
  | nil => exact hm
  | cons hq hfire _ ih => exact ih (hP hm hq hfire)

theorem of_mem_picks (hm : P m) {x : Pick τ ο σ} (hx : x ∈ m.picks h due limit) :
    P x.machine ∧ ∃ rest, x.machine.queue = x.entry :: rest := by
  induction limit generalizing m with
  | zero => cases hx
  | succ limit ih =>
    obtain ⟨e, rest, hq, -, rfl | ⟨m₁, hfire, hx⟩⟩ := mem_picks_succ hx
    · exact ⟨hm, rest, hq⟩
    · exact ih (hP hm hq hfire) hx

end

theorem fired_fire {e : Entry τ} {rest : List (Entry τ)} (hfire : m.fire h e rest = .ok m') :
    ∃ y, m'.fired = m.fired ++ [y] ∧ Pick.Ran h ⟨m, e⟩ y := by
  obtain ⟨r, hr, rfl⟩ := fire_eq_ok.1 hfire
  exact ⟨_, by rw [fired_putAll, fired_popped], r, hr, rfl⟩

theorem map_submitted_putAll (ss : List (Submission τ)) (m : Machine τ ο σ) :
    (putAll ss m).submitted.map (fun x => x.2.submission) = m.submitted.map (fun x => x.2.submission) ++ ss := by
  induction ss generalizing m with
  | nil => rw [putAll_nil, List.append_nil]
  | cons s ss ih =>
    rw [putAll_cons, ih, submitted_put, List.map_append, List.append_assoc]
    rfl

theorem submitted_fire {e : Entry τ} {rest : List (Entry τ)} (hfire : m.fire h e rest = .ok m') :
    m'.submitted.map (fun x => x.2.submission) =
      m.submitted.map (fun x => x.2.submission) ++ Pick.submissions h ⟨m, e⟩ := by
  obtain ⟨r, hr, rfl⟩ := fire_eq_ok.1 hfire
  rw [map_submitted_putAll, submitted_popped]
  simp only [Pick.submissions, Pick.clock, hr]

theorem Fires.fired_eq (hfires : Fires h m xs m') :
    ∃ ys, m'.fired = m.fired ++ ys ∧ List.Forall₂ (Pick.Ran h) xs ys := by
  induction hfires with
  | nil => exact ⟨[], (List.append_nil _).symm, .nil⟩
  | cons _ hfire _ ih =>
    obtain ⟨y, hy, hran⟩ := fired_fire hfire
    obtain ⟨ys, hys, hrans⟩ := ih
    exact ⟨y :: ys, by rw [hys, hy, List.append_assoc]; rfl, .cons hran hrans⟩

theorem Fires.submitted_eq (hfires : Fires h m xs m') : m'.submitted.map (fun x => x.2.submission) =
    m.submitted.map (fun x => x.2.submission) ++ xs.flatMap (Pick.submissions h) := by
  induction hfires with
  | nil => rw [List.flatMap_nil, List.append_nil]
  | cons _ hfire _ ih => rw [ih, submitted_fire hfire, List.append_assoc, List.flatMap_cons]

theorem Ledger.fire (hm : m.Ledger) {e : Entry τ} {rest : List (Entry τ)} (hq : m.queue = e :: rest)
    (hfire : m.fire h e rest = .ok m') : m'.Ledger := by
  obtain ⟨r, -, rfl⟩ := fire_eq_ok.1 hfire
  exact (hm.popped hq r.outcome r.world).putAll r.submissions

end Machine

/-! ## Operations -/

def Operation.put? : Operation τ → Option (Submission τ)
  | .put s => some s
  | .time _ => none

namespace Dynamics

variable {d : Dynamics τ ο σ} {m m' : Machine τ ο σ} {o : Operation τ} {n : Nat}

def picks (d : Dynamics τ ο σ) (m : Machine τ ο σ) : Operation τ → List (Pick τ ο σ)
  | .put _ => []
  | .time .runNext => m.picks d.handler (fun _ => true) 1
  | .time (.runUntil deadline) => m.picks d.handler (fun t => t ≤ deadline) (d.allowance deadline m)
  | .time (.advance span) =>
    match m.clock.add? span with
    | none => []
    | some deadline => m.picks d.handler (fun t => t ≤ deadline) (d.allowance deadline m)
  | .time (.runAll limit) => m.picks d.handler (fun _ => true) limit

/-- The submissions that are due to an operation: those from outside, and those of the tasks that it takes up. -/
def asked (d : Dynamics τ ο σ) (m : Machine τ ο σ) (o : Operation τ) : List (Submission τ) :=
  o.put?.toList ++ (d.picks m o).flatMap (Pick.submissions d.handler)

theorem picks_eq (d : Dynamics τ ο σ) (m : Machine τ ο σ) (o : Operation τ) :
    ∃ due limit, d.picks m o = m.picks d.handler due limit := by
  cases o with
  | put s => exact ⟨fun _ => true, 0, rfl⟩
  | time step =>
    cases step with
    | runNext => exact ⟨_, _, rfl⟩
    | runUntil deadline => exact ⟨_, _, rfl⟩
    | runAll limit => exact ⟨_, _, rfl⟩
    | advance span =>
      simp only [picks]
      cases m.clock.add? span with
      | none => exact ⟨fun _ => true, 0, rfl⟩
      | some deadline => exact ⟨_, _, rfl⟩

theorem fires_of_runUntil {deadline : Instant} (hrun : d.runUntil deadline m = .ok (n, m')) :
    ∃ m₁, Machine.Fires d.handler m (m.picks d.handler (fun t => t ≤ deadline) (d.allowance deadline m)) m₁ ∧
      n = (m.picks d.handler (fun t => t ≤ deadline) (d.allowance deadline m)).length ∧ m' = m₁.moveTo deadline := by
  simp only [runUntil, Machine.runUntil] at hrun
  split at hrun
  · cases hrun
  · rename_i k m₁ hwhile
    split at hrun
    · cases hrun
    · cases hrun
      obtain ⟨hfires, hn, -, -⟩ := Machine.fires_of_runWhile hwhile
      exact ⟨m₁, hfires, by rw [hn, Nat.zero_add], rfl⟩

/-- An operation puts a task, or it takes up tasks and may move the clock on when they have run. -/
theorem operate_cases (hrun : d.operate m o = .ok (n, m')) : (∃ s, o = .put s ∧ n = 0 ∧ m' = m.put s) ∨
    o.put? = none ∧ n = (d.picks m o).length ∧
      ∃ m₁, Machine.Fires d.handler m (d.picks m o) m₁ ∧ (m' = m₁ ∨ ∃ t, m' = m₁.moveTo t) := by
  cases o with
  | put s =>
    cases hrun
    exact .inl ⟨s, rfl, rfl, rfl⟩
  | time step =>
    refine .inr ⟨rfl, ?_⟩
    cases step with
    | runNext =>
      rw [operate, Dynamics.step, Machine.runNext_eq] at hrun
      obtain ⟨hfires, hn, -, -⟩ := Machine.fires_of_runWhile hrun
      exact ⟨hn.trans (Nat.zero_add _), m', hfires, .inl rfl⟩
    | runAll limit =>
      obtain ⟨hfires, hn, -, -⟩ := Machine.fires_of_runWhile hrun
      exact ⟨hn.trans (Nat.zero_add _), m', hfires, .inl rfl⟩
    | runUntil deadline =>
      obtain ⟨m₁, hfires, hn, hmove⟩ := fires_of_runUntil hrun
      exact ⟨hn, m₁, hfires, .inr ⟨deadline, hmove⟩⟩
    | advance span =>
      simp only [operate, Dynamics.step, advance] at hrun
      simp only [picks]
      cases hadd : m.clock.add? span with
      | none => rw [hadd] at hrun; cases hrun
      | some deadline =>
        simp only [hadd] at hrun
        obtain ⟨m₁, hfires, hn, hmove⟩ := fires_of_runUntil hrun
        exact ⟨hn, m₁, hfires, .inr ⟨deadline, hmove⟩⟩

theorem ledger_operate (hm : m.Ledger) (hrun : d.operate m o = .ok (n, m')) : m'.Ledger := by
  rcases operate_cases hrun with ⟨s, rfl, -, rfl⟩ | ⟨-, -, m₁, hfires, rfl | ⟨t, rfl⟩⟩
  · exact hm.put s
  · exact hfires.induct (fun hm => hm.fire) hm
  · exact (hfires.induct (fun hm => hm.fire) hm).moveTo t

theorem fired_operate (hrun : d.operate m o = .ok (n, m')) :
    ∃ ys, m'.fired = m.fired ++ ys ∧ List.Forall₂ (Pick.Ran d.handler) (d.picks m o) ys := by
  rcases operate_cases hrun with ⟨s, rfl, -, rfl⟩ | ⟨-, -, m₁, hfires, rfl | ⟨t, rfl⟩⟩
  · exact ⟨[], by rw [Machine.fired_put, List.append_nil], .nil⟩
  · exact hfires.fired_eq
  · rw [Machine.fired_moveTo]; exact hfires.fired_eq

theorem submitted_operate (hrun : d.operate m o = .ok (n, m')) : m'.submitted.map (fun x => x.2.submission) =
    m.submitted.map (fun x => x.2.submission) ++ d.asked m o := by
  rcases operate_cases hrun with ⟨s, rfl, -, rfl⟩ | ⟨hput, -, m₁, hfires, rfl | ⟨t, rfl⟩⟩
  · rw [Machine.submitted_put, List.map_append]
    rfl
  · rw [asked, hput]; exact hfires.submitted_eq
  · rw [asked, hput, Machine.submitted_moveTo]; exact hfires.submitted_eq

end Dynamics

/-! ## Scripts -/

namespace Script

variable {S C A B F : Type} {apply : S → C → Except F (A × S)}

theorem exists_of_any {x : Except F A} {p : A → Bool} (hx : x.toOption.any p = true) : ∃ a, x = .ok a ∧ p a = true := by
  cases x with
  | error f => cases hx
  | ok a => exact ⟨a, rfl, hx⟩

theorem run_cons_eq_ok {s s' : S} {c : C} {cs : List C} {as : List A} : run apply s (c :: cs) = .ok (as, s') ↔
    ∃ a s₁ as', apply s c = .ok (a, s₁) ∧ run apply s₁ cs = .ok (as', s') ∧ as = a :: as' := by
  constructor
  · intro hrun
    cases happly : apply s c with
    | error f => rw [run, happly] at hrun; cases hrun
    | ok r =>
      cases hrest : run apply r.2 cs with
      | error f => simp only [run, happly, bind, Except.bind, hrest, Except.map, reduceCtorEq] at hrun
      | ok x =>
        simp only [run, happly, bind, Except.bind, hrest, Except.map, Except.ok.injEq] at hrun
        cases hrun
        exact ⟨r.1, r.2, x.1, rfl, hrest, rfl⟩
  · rintro ⟨a, s₁, as', happly, hrest, rfl⟩
    simp only [run, happly, bind, Except.bind, hrest, Except.map]

theorem run_induct {P : S → Prop} (hP : ∀ {s c a s'}, P s → apply s c = .ok (a, s') → P s') {s s' : S} {cs : List C}
    {as : List A} (hs : P s) (hrun : run apply s cs = .ok (as, s')) : P s' := by
  induction cs generalizing s as with
  | nil => cases hrun; exact hs
  | cons c cs ih =>
    obtain ⟨a, s₁, as', happly, hrest, -⟩ := run_cons_eq_ok.1 hrun
    exact ih (hP hs happly) hrest

/-- Whatever is read off the steps is read in a state that has what every step keeps. -/
theorem of_mem_collect {P : S → Prop} (hP : ∀ {s c a s'}, P s → apply s c = .ok (a, s') → P s') {f : S → C → List B}
    {s : S} {cs : List C} {x : B} (hs : P s) (hx : x ∈ collect apply f s cs) : ∃ s' c, P s' ∧ x ∈ f s' c := by
  induction cs generalizing s with
  | nil => cases hx
  | cons c cs ih =>
    rw [collect] at hx
    rcases List.mem_append.1 hx with hx | hx
    · exact ⟨s, c, hs, hx⟩
    · cases happly : apply s c with
      | error f => rw [happly] at hx; cases hx
      | ok r => rw [happly] at hx; exact ih (hP hs happly) hx

theorem collect_cons {s s' : S} {c : C} {a : A} (happly : apply s c = .ok (a, s')) (f : S → C → List B) (cs : List C) :
    collect apply f s (c :: cs) = f s c ++ collect apply f s' cs := by
  rw [collect, happly]

theorem collect_map {D : Type} (g : B → D) (f : S → C → List B) (s : S) (cs : List C) :
    collect apply (fun s c => (f s c).map g) s cs = (collect apply f s cs).map g := by
  induction cs generalizing s with
  | nil => rfl
  | cons c cs ih =>
    rw [collect, collect, List.map_append]
    cases apply s c with
    | error e => rfl
    | ok r => exact congrArg ((f s c).map g ++ ·) (ih r.2)

/-- A history that each step continues by what is read off it. -/
theorem history_run {view : S → List B} {f : S → C → List B}
    (hstep : ∀ {s c a s'}, apply s c = .ok (a, s') → view s' = view s ++ f s c) {s s' : S} {cs : List C} {as : List A}
    (hrun : run apply s cs = .ok (as, s')) : view s' = view s ++ collect apply f s cs := by
  induction cs generalizing s as with
  | nil => cases hrun; rw [collect, List.append_nil]
  | cons c cs ih =>
    obtain ⟨a, s₁, as', happly, hrest, -⟩ := run_cons_eq_ok.1 hrun
    rw [ih hrest, hstep happly, collect_cons happly, List.append_assoc]

end Script

/-! ## A few plans -/

/-- One plan is overdue, and submits for a fixed time and for a while after its own; what it submits goes on with a time that
has passed by then. -/
def Plan.journeys : List (Submission (Plan Nat)) :=
  [⟨.later default (-5), .mk 1 [(.at (.later default 20), .mk 2 []), (.after 10, .mk 3 [(.after (-3), .mk 4 [])])]⟩,
    ⟨.later default 15, .mk 5 []⟩]

/-- What ran, with the clock that it was given. -/
def Machine.labels (m : Machine (Plan Nat) Unit Unit) : List (Int × Nat) :=
  m.fired.map fun x => (x.1.nanos, x.2.1.task.label)

end VirtualMesh

import VirtualMesh.Proofs.Scheduler.Parallel
import VirtualMesh.Scheduler.Plan

/-!
# Where a run starts

Seen from its start, a run does not tell where on the time line the start lies: as long as all instants are on the
line, what is done at the same times since the start comes to the same.
-/

namespace VirtualMesh

variable {τ ο σ σ' κ : Type}

/-! ## A machine as seen from its start -/

/-- What a machine shows: times in nanoseconds since a start, and tasks by name. -/
structure Sight (κ ο σ : Type) where
  clock : Int
  nextFireTime : Option Int
  fireTimes : List Int
  queue : List (Int × Nat × κ)
  submissions : Nat
  submitted : List (Int × Int × Nat × κ)
  fired : List (Int × (Int × Nat × κ) × ο)
  world : σ

def Entry.sight (start : Instant) (name : τ → κ) (e : Entry τ) : Int × Nat × κ :=
  (e.fireAt.since start, e.number, name e.task)

def Machine.sight (start : Instant) (name : τ → κ) (m : Machine τ ο σ) : Sight κ ο σ where
  clock := m.clock.since start
  nextFireTime := m.nextFireTime.map fun t => t.since start
  fireTimes := m.fireTimes.map fun t => t.since start
  queue := m.queue.map (Entry.sight start name)
  submissions := m.submissions
  submitted := m.submitted.map fun x => (x.1.since start, x.2.sight start name)
  fired := m.fired.map fun x => (x.1.since start, x.2.1.sight start name, x.2.2)
  world := m.world

section
variable {l : Likeness τ} {t t' : Instant} {name : τ → κ}

theorem Entry.Alike.sight_eq {e e' : Entry τ} (h : e.Alike l e') (htotal : l.Total) (ht : t.Ahead l.shift t')
    (hname : ∀ {x y}, l.task x y → name y = name x) : e'.sight t' name = e.sight t name := by
  rw [Entry.sight, Entry.sight, h.fireAt.since_eq ht, h.number htotal, hname h.task]

/-- Twins look the same, each seen from its own start. -/
theorem Machine.Twin.sight_eq {W : σ → σ → Prop} {m m' : Machine τ ο σ} (hm : Twin l W m m') (htotal : l.Total)
    (ht : t.Ahead l.shift t') (hname : ∀ {x y}, l.task x y → name y = name x) (hworld : ∀ {w w'}, W w w' → w' = w) :
    m'.sight t' name = m.sight t name := by
  have hsame : ∀ {e e' : Entry τ}, e.Alike l e' → e'.sight t' name = e.sight t name := fun he =>
    he.sight_eq htotal ht hname
  have hqueue := hm.queue htotal
  have hentries : m'.queue.map (Entry.sight t' name) = m.queue.map (Entry.sight t name) :=
    (forall₂_iff_map_eq.1 (hqueue.imp fun _ _ he => (hsame he).symm)).symm
  have hfireTimes : m'.fireTimes.map (fun u => u.since t') = m.fireTimes.map fun u => u.since t := by
    rw [fireTimes, fireTimes, List.map_map, List.map_map]
    exact (forall₂_iff_map_eq.1 (hqueue.imp fun _ _ he => (he.fireAt.since_eq ht).symm)).symm
  have hnext : m'.nextFireTime.map (fun u => u.since t') = m.nextFireTime.map fun u => u.since t := by
    have hhead := congrArg List.head? hfireTimes
    rwa [List.head?_map, List.head?_map, fireTimes, fireTimes, List.head?_map, List.head?_map] at hhead
  have hjournal : ∀ {α : Type} {f f' : Event τ ο → Option α}, (∀ {x x'}, x.Alike l x' → f' x' = f x) →
      m'.journal.reverse.filterMap f' = m.journal.reverse.filterMap f := by
    intro α f f' hf
    rw [List.filterMap_reverse, List.filterMap_reverse, hm.alike.filterMap_journal (fun {x} hx => ?_) hf]
    rw [Event.isShown, htotal] at hx
    cases hx
  have hsubmitted : (m'.submitted.map fun x => (x.1.since t', x.2.sight t' name)) =
      m.submitted.map fun x => (x.1.since t, x.2.sight t name) := by
    rw [Machine.submitted, Machine.submitted, List.map_filterMap, List.map_filterMap]
    refine hjournal fun {x x'} hx => ?_
    cases hx with
    | submitted hc he => simp only [Event.submission?, Option.map_some, hsame he, hc.since_eq ht]
    | fired => rfl
  have hfired : (m'.fired.map fun x => (x.1.since t', x.2.1.sight t' name, x.2.2)) =
      m.fired.map fun x => (x.1.since t, x.2.1.sight t name, x.2.2) := by
    rw [fired, fired, List.map_filterMap, List.map_filterMap]
    refine hjournal fun {x x'} hx => ?_
    cases hx with
    | submitted => rfl
    | fired hc he => simp only [Event.firing?, Option.map_some, hsame he, hc.since_eq ht]
  rw [sight, sight, hm.clock.since_eq ht, hnext, hfireTimes, hentries, hm.alike.submissions htotal, hsubmitted, hfired,
    hworld hm.world]

end

/-! ## Scripts -/

namespace Script

variable {S S' C C' A B F : Type}

/-- Does what a script says, up to the first step that is refused. -/
def run (apply : S → C → Except F (A × S)) (s : S) : List C → Except F (List A × S)
  | [] => .ok ([], s)
  | c :: cs => apply s c >>= fun r => (run apply r.2 cs).map fun x => (r.1 :: x.1, x.2)

/-- What is read off each step of a script and the state before it. -/
def collect (apply : S → C → Except F (A × S)) (f : S → C → List B) (s : S) : List C → List B
  | [] => []
  | c :: cs =>
    f s c ++
      match apply s c with
      | .error _ => []
      | .ok r => collect apply f r.2 cs

/-- Steps that lead alike states to alike states, and give the same answers, make up such scripts; as long as `x` is not
read off any of them. -/
theorem tally_run {excused : F → Prop} (R : S → S' → Prop) {Pair : C → C' → Prop} {apply : S → C → Except F (A × S)}
    {apply' : S' → C' → Except F (A × S')} {f : S → C → List B} {g : S' → C' → List B} {x : B} {cs : List C} {cs' : List C'}
    (hcs : List.Forall₂ Pair cs cs') {s : S} {s' : S'} (hs : R s s')
    (hstep : ∀ {s s' c c'}, R s s' → Pair c c' → x ∉ f s c → x ∉ g s' c' →
      Tally excused (fun r r' => r'.1 = r.1 ∧ R r.2 r'.2) (apply s c) (apply' s' c'))
    (hx : x ∉ collect apply f s cs) (hx' : x ∉ collect apply' g s' cs') :
    Tally excused (fun r r' => r'.1 = r.1 ∧ R r.2 r'.2) (run apply s cs) (run apply' s' cs') := by
  induction hcs generalizing s s' with
  | nil => exact .ok ⟨rfl, hs⟩
  | @cons c c' cs cs' hc _ ih =>
    rw [collect, List.mem_append, not_or] at hx hx'
    have happly := hstep hs hc hx.1 hx'.1
    have hrest := hx.2
    have hrest' := hx'.2
    rw [run, run]
    generalize apply s c = r at happly hrest
    generalize apply' s' c' = r' at happly hrest'
    cases happly with
    | ok hr => exact (ih hr.2 hrest hrest').map fun hr' => ⟨by rw [hr.1, hr'.1], hr'.2⟩
    | error => exact .error
    | left hf => exact .left hf
    | right hf => exact .right hf

end Script

/-- What a run shows in the end: its answers and its last state, seen from the start, or why it stopped. -/
def Machine.shown {A F : Type} (start : Instant) (name : τ → κ) (x : Except F (A × Machine τ ο σ)) :
    Except F (A × Sight κ ο σ) :=
  x.map fun r => (r.1, r.2.sight start name)

/-- Runs that nothing excusable stops show the same. -/
theorem Tally.shown_eq {A F : Type} {excused : F → Prop} {l : Likeness τ} {W : σ → σ → Prop}
    {x y : Except F (A × Machine τ ο σ)} (h : Tally excused (fun r r' => r'.1 = r.1 ∧ Machine.Twin l W r.2 r'.2) x y)
    (htotal : l.Total) {t t' : Instant} (ht : t.Ahead l.shift t') {name : τ → κ}
    (hname : ∀ {x y}, l.task x y → name y = name x) (hworld : ∀ {w w'}, W w w' → w' = w)
    (hx : ∀ e, x = .error e → ¬excused e) (hy : ∀ e, y = .error e → ¬excused e) :
    Machine.shown t' name y = Machine.shown t name x := by
  rcases h.elim hx hy with ⟨r, r', rfl, rfl, hanswer, htwin⟩ | ⟨e, rfl, rfl⟩
  · simp only [Machine.shown, Except.map, hanswer, htwin.sight_eq htotal ht hname hworld]
  · rfl

/-- What can be done to a machine from outside: to put a task into its queue, and to let time pass. -/
inductive Operation (τ : Type) where
  | put (s : Submission τ)
  | time (step : ClockStep)

inductive Operation.Alike (l : Likeness τ) : Operation τ → Operation τ → Prop
  | put {s s' : Submission τ} (h : s.Alike l s') : Alike l (.put s) (.put s')
  | time {step step' : ClockStep} (h : step.Ahead l.shift step') : Alike l (.time step) (.time step')

/-- Does one thing, and says how many tasks ran. -/
def Dynamics.operate (d : Dynamics τ ο σ) (m : Machine τ ο σ) : Operation τ → Except Fault (Nat × Machine τ ο σ)
  | .put s => .ok (0, m.put s)
  | .time step => d.step m step

theorem Machine.Twin.put {l : Likeness τ} {W : σ → σ' → Prop} {m : Machine τ ο σ} {m' : Machine τ ο σ'}
    (hm : Twin l W m m') {s s' : Submission τ} (hs : s.Alike l s') : Twin l W (m.put s) (m'.put s') :=
  hm.putAll (.cons hs .nil)

/-! ## Plans -/

inductive Timing.Ahead (shift : Int) : Timing → Timing → Prop
  | at {t t' : Instant} (h : t.Ahead shift t') : Ahead shift (.at t) (.at t')
  | after {nanos : Int} : Ahead shift (.after nanos) (.after nanos)

namespace Plan

variable {α : Type}

mutual

/-- The same plan, with the instants in it taken from the other time line. -/
inductive Ahead (shift : Int) : Plan α → Plan α → Prop
  | mk {label : α} {next next' : List (Timing × Plan α)} (h : AllAhead shift next next') :
      Ahead shift (.mk label next) (.mk label next')

inductive AllAhead (shift : Int) : List (Timing × Plan α) → List (Timing × Plan α) → Prop
  | nil : AllAhead shift [] []
  | cons {t t' : Timing} {p p' : Plan α} {ps ps' : List (Timing × Plan α)} (ht : t.Ahead shift t') (hp : Ahead shift p p')
      (hps : AllAhead shift ps ps') : AllAhead shift ((t, p) :: ps) ((t', p') :: ps')

end

variable {shift : Int}

theorem Ahead.label_eq {p p' : Plan α} (h : Ahead shift p p') : p'.label = p.label := by
  cases h
  rfl

mutual

theorem Ahead.size_eq {p p' : Plan α} : Ahead shift p p' → p'.size = p.size
  | .mk h => by rw [size, size, h.sizes_eq]

theorem AllAhead.sizes_eq {ps ps' : List (Timing × Plan α)} : AllAhead shift ps ps' → sizes ps' = sizes ps
  | .nil => rfl
  | .cons _ hp hps => by rw [sizes, sizes, hp.size_eq, hps.sizes_eq]

end

def likeness (α : Type) (shift : Int) : Likeness (Plan α) where
  shift
  shown _ := true
  task := Ahead shift
  shown_eq _ := rfl

theorem total_likeness : (likeness α shift).Total := fun _ => rfl

/-- An instant that a plan reckons from the clock may lie beyond the end of one time line only. -/
theorem AllAhead.submissions {ps ps' : List (Timing × Plan α)} (h : AllAhead shift ps ps') {c c' : Instant}
    (hc : c.Ahead shift c') : Tally (fun f => f = .instantOverflow) (List.Forall₂ (Submission.Alike (likeness α shift)))
      (Plan.submissions c ps) (Plan.submissions c' ps') := by
  induction ps generalizing ps' with
  | nil =>
    cases h
    exact .ok .nil
  | cons x ps ih =>
    obtain _ | ⟨ht, hp, hps⟩ := h
    cases ht with
    | «at» ht => exact (ih hps).map fun hss => .cons ⟨ht, hp⟩ hss
    | @after nanos =>
      simp only [Plan.submissions]
      rcases hc.shift?_cases nanos with ⟨u, u', hu, hu', hahead⟩ | ⟨hu, hu'⟩ | ⟨-, hu⟩ | ⟨-, hu'⟩
      · rw [hu, hu']
        exact (ih hps).map fun hss => .cons ⟨hahead, hp⟩ hss
      · rw [hu, hu']
        exact .error
      · rw [hu]
        exact .left rfl
      · rw [hu']
        exact .right rfl

theorem agree_handler : Handler.Agree (likeness α shift) (fun _ _ => True) (fun f => f = .instantOverflow) (fun _ => True)
    (fun _ => True) handler handler := by
  intro p p' c c' w w' hp hc _ _ _
  cases hp with
  | mk h => exact (h.submissions hc).map fun hss => ⟨trivial, rfl, hss⟩

theorem twin_operate {m m' : Machine (Plan α) Unit Unit} (hm : Machine.Twin (likeness α shift) (fun _ _ => True) m m')
    {o o' : Operation (Plan α)} (ho : o.Alike (likeness α shift) o') : Tally (fun f => f = .instantOverflow)
      (fun r r' => r'.1 = r.1 ∧ Machine.Twin (likeness α shift) (fun _ _ => True) r.2 r'.2) (dynamics.operate m o)
        (dynamics.operate m' o') := by
  cases ho with
  | put hs => exact .ok ⟨rfl, hm.put hs⟩
  | time hstep =>
    have hexcused : (likeness α shift).shift ≠ 0 → (fun f => f = Fault.instantOverflow) .instantOverflow := fun _ => rfl
    refine Dynamics.twin_step dynamics dynamics total_likeness agree_handler
      (fun {t t' m m'} _ hm => ?_) hexcused hm hstep (fun _ _ => trivial) fun _ _ => trivial
    have hsizes : (m'.queue.map fun e => e.task.size) = m.queue.map fun e => e.task.size :=
      (forall₂_iff_map_eq.1 ((hm.queue total_likeness).imp fun _ _ he => he.task.size_eq.symm)).symm
    exact congrArg (fun l => l.foldr (· + ·) 0) hsizes

def start (clock : Instant) : Machine (Plan α) Unit Unit := Machine.startingAt clock ()

/-- A script of plans stays on the time line if no step stops for want of an instant. -/
theorem shown_eq {t t' : Instant} (ht : t.Ahead shift t') {os os' : List (Operation (Plan α))}
    (hos : List.Forall₂ (Operation.Alike (likeness α shift)) os os')
    (hline : Script.run dynamics.operate (start t) os ≠ .error .instantOverflow)
    (hline' : Script.run dynamics.operate (start t') os' ≠ .error .instantOverflow) :
    Machine.shown t' label (Script.run dynamics.operate (start t') os') =
      Machine.shown t label (Script.run dynamics.operate (start t) os) := by
  have hstart : Machine.Twin (likeness α shift) (fun _ _ => True) (start t) (start t') := ⟨.startingAt .., ht, trivial⟩
  have hnone : ∀ (m : Machine (Plan α) Unit Unit) (os : List (Operation (Plan α))),
      () ∉ Script.collect dynamics.operate (fun _ _ => []) m os := by
    intro m os
    induction os generalizing m with
    | nil => exact List.not_mem_nil
    | cons o os ih =>
      rw [Script.collect, List.nil_append]
      cases dynamics.operate m o with
      | error => exact List.not_mem_nil
      | ok r => exact ih r.2
  have hrun := Script.tally_run (Machine.Twin (likeness α shift) fun _ _ => True) hos hstart
    (fun hm ho _ _ => twin_operate hm ho) (hnone _ _) (hnone _ _)
  exact hrun.shown_eq total_likeness ht Ahead.label_eq (fun _ => rfl) (fun e he hf => hline (hf ▸ he))
    fun e he hf => hline' (hf ▸ he)

end Plan

/-- The instant so many nanoseconds away, on the line. -/
def Instant.later (t : Instant) (nanos : Int) : Instant := (t.shift? nanos).getD t

end VirtualMesh

import VirtualMesh.Proofs.Scheduler.Starting
import VirtualMesh.Proofs.Simulation.Parallel

/-!
# Where a simulation starts

Two simulations that start at different instants, and are given the same commands at the same times since, are the same
as seen from their starts; so they are if plans run in the same queue.
-/

namespace VirtualMesh

variable {ε ρ α : Type}

/-- Equal but for the place on the time line. -/
def Kinship.moved (ε : Type) (shift : Int) : Kinship ε ε where
  shift
  hidden := none
  payload b b' := b' = b
  engine x y := y = x
  verdict v v' := v' = v
  excused f := f = .instantOverflow

section
variable {shift : Int}

theorem Kinship.rel_moved (o : Option ε) : Option.Rel (moved ε shift).engine o o := by
  cases o with
  | none => exact .none
  | some x => exact .some rfl

theorem Kinship.lawful_moved [Consensus ε] : (Kinship.moved ε shift).Lawful where
  payload_refl _ := rfl
  payload_length h := congrArg List.length h
  receive hxy hb := by rw [show _ = _ from hxy, show _ = _ from hb]; exact ⟨rfl, rfl⟩
  update hxy := by rw [show _ = _ from hxy]; exact ⟨rfl, rfl⟩
  propose hxy alive state := by
    rw [show _ = _ from hxy]
    exact .refl (fun r => ⟨rfl, List.forall₂_same.2 fun _ _ => ⟨rfl, rfl⟩⟩) _
  attach hxy links := by
    rw [show _ = _ from hxy]
    exact rel_moved _
  instants _ := rfl
  faults := nofun
  receive_left := nofun
  receive_right := nofun
  update_left := nofun
  update_right := nofun

theorem Task.Alike.eq_of_moved {t u : Task} (h : t.Alike (.moved ε shift) u) : u = t := by
  cases h with
  | delivery hpayload => rw [show _ = _ from hpayload]
  | tick => rfl

theorem World.Alike.eq_of_moved {w w' : World ε ρ} (h : World.Alike (.moved ε shift) w w') : w' = w := by
  rw [h.eq_with_engines rfl, eq_of_forall₂ (fun {x y} (hxy : y = x) => hxy) h.engines]

theorem Answer.Alike.eq_of_moved {a a' : Answer} (h : a.Alike (.moved ε shift) a') : a' = a := by
  cases h with
  | same => rfl
  | verdict hv => exact congrArg Answer.verdict hv
  | secret hhidden => cases hhidden

theorem Refusal.not_excused {x : Refusal} (h : x ≠ .fault .instantOverflow) :
    ¬x.Excused fun f => f = .instantOverflow := by
  cases x with
  | absent => exact id
  | fault f => exact fun hf => h (congrArg Refusal.fault hf)

end

namespace Simulation

variable [NormalSource ρ] [Consensus ε]

theorem run_eq_script (s : Simulation ε ρ) (cs : List Command) : s.run cs = Script.run apply s cs := by
  induction cs generalizing s with
  | nil => rfl
  | cons c cs ih =>
    rw [run_cons, Script.run]
    simp only [ih]

theorem collect_eq_script {β : Type} (f : Simulation ε ρ → Command → List β) (s : Simulation ε ρ) (cs : List Command) :
    s.collect f cs = Script.collect apply f s cs := by
  induction cs generalizing s with
  | nil => rfl
  | cons c cs ih =>
    rw [collect, Script.collect]
    cases s.apply c with
    | error => rfl
    | ok r => exact congrArg (f s c ++ ·) (ih r.2)

/-- Every instant that a script of commands brings up is on the time line: no step stops for want of one, and no tick is
left out of the queue. -/
def OnLine (s : Simulation ε ρ) (cs : List Command) : Prop :=
  s.run cs ≠ .error (.fault .instantOverflow) ∧ none ∉ s.collect rearmings cs

variable {shift : Int} {s s' : Simulation ε ρ}

theorem Alike.apply_moved (h : Alike (.moved ε shift) s s') {c c' : Command} (hc : c.Ahead shift c')
    (hs : none ∉ s.rearmings c) (hs' : none ∉ s'.rearmings c') :
    Tally (Refusal.Excused fun f => f = .instantOverflow)
      (fun r r' => r'.1 = r.1 ∧ Alike (.moved ε shift) r.2 r'.2) (s.apply c) (s'.apply c') := by
  refine (h.apply rfl Kinship.lawful_moved hc (fun i error _ {x y} hxy => ?_) (fun _ => hs) fun _ => hs').imp fun hr =>
    ⟨hr.1.eq_of_moved, hr.2⟩
  rw [show _ = _ from hxy]
  exact Kinship.rel_moved _

theorem shown_eq {t t' : Instant} (ht : t.Ahead shift t') (engines : List ε) {cs cs' : List Command}
    (hcs : List.Forall₂ (Command.Ahead shift) cs cs') (hline : (start t engines : Simulation ε ρ).OnLine cs)
    (hline' : (start t' engines : Simulation ε ρ).OnLine cs') :
    Machine.shown t' id ((start t' engines : Simulation ε ρ).run cs') =
      Machine.shown t id ((start t engines : Simulation ε ρ).run cs) := by
  have hstart : Alike (.moved ε shift) (start t engines : Simulation ε ρ) (start t' engines) :=
    .start ht (List.forall₂_same.2 fun _ _ => rfl)
  obtain ⟨hrun, hcollect⟩ := hline
  obtain ⟨hrun', hcollect'⟩ := hline'
  rw [run_eq_script] at hrun hrun'
  rw [collect_eq_script] at hcollect hcollect'
  have htally := Script.tally_run (Alike (.moved ε shift)) hcs hstart
    (fun hs hc hsteady hsteady' => hs.apply_moved hc hsteady hsteady') hcollect hcollect'
  rw [run_eq_script, run_eq_script]
  exact htally.shown_eq (Kinship.total_of_hidden_eq_none rfl) ht (fun h => h.eq_of_moved) World.Alike.eq_of_moved
    (fun e he => Refusal.not_excused fun heq => hrun (heq ▸ he)) fun e he => Refusal.not_excused fun heq => hrun' (heq ▸ he)

end Simulation

/-! ## Plans in the queue of a simulation -/

def Submission.as {τ κ : Type} (f : τ → κ) (s : Submission τ) : Submission κ := ⟨s.fireAt, f s.task⟩

/-- A machine that runs the tasks of a simulation and plans. -/
abbrev Joint (ε ρ α : Type) := Machine (Task ⊕ Plan α) (Outcome ⊕ Unit) (World ε ρ)

/-- What can be done to it: to put a plan into the queue, and all that can be done to a simulation. -/
inductive Joint.Command (α : Type) where
  | plan (s : Submission (Plan α))
  | order (c : VirtualMesh.Command)

namespace Joint

variable [Consensus ε]

def handler : Handler (Task ⊕ Plan α) (Outcome ⊕ Unit) (World ε ρ)
  | .inl task, clock, w =>
    (World.handler task clock w).map fun r => ⟨r.world, .inl r.outcome, r.submissions.map (.as .inl)⟩
  | .inr plan, clock, w => (Plan.handler plan clock ()).map fun r => ⟨w, .inr r.outcome, r.submissions.map (.as .inr)⟩

omit [Consensus ε] in
/-- How many tasks can come from an entry of the queue up to the deadline. -/
def share (w : World ε ρ) (deadline : Instant) (e : Entry (Task ⊕ Plan α)) : Nat :=
  match e.task with
  | .inl task => if e.fireAt ≤ deadline then w.share deadline e.fireAt task else 0
  | .inr plan => plan.size

def dynamics : Dynamics (Task ⊕ Plan α) (Outcome ⊕ Unit) (World ε ρ) where
  handler := handler
  allowance deadline m := (m.queue.map (share m.world deadline)).foldr (· + ·) 0

def start (clock : Instant) (engines : List ε) : Joint ε ρ α := Machine.startingAt clock (.ofEngines engines)

omit [Consensus ε] in
/-- The world at this time, without what waits in the queue: a command does not look at it. -/
def aside (m : Joint ε ρ α) : Simulation ε ρ := Machine.startingAt m.clock m.world

omit [Consensus ε] in
/-- Takes over the world of a simulation, and puts its tasks into the queue. -/
def takeUp (m : Joint ε ρ α) (s : Simulation ε ρ) : Joint ε ρ α :=
  m.absorb ⟨s.world, (), s.submitted.map fun x => ⟨x.2.fireAt, .inl x.2.task⟩⟩

def rearmingOf : (Task ⊕ Plan α) × Instant × World ε ρ → List (Option Instant)
  | (.inl task, clock, w) => World.rearmingOf (task, clock, w)
  | (.inr _, _, _) => []

variable [NormalSource ρ]

def apply (m : Joint ε ρ α) : Command α → Except Refusal (Answer × Joint ε ρ α)
  | .plan s => .ok (.done, m.put (s.as .inr))
  | .order (.time step) => (Simulation.attempt (dynamics.step m step)).map fun r => (.count r.1, r.2)
  | .order c => (m.aside.apply c).map fun r => (r.1, m.takeUp r.2)

def rearmings (m : Joint ε ρ α) : Command α → List (Option Instant)
  | .plan _ => []
  | .order (.time step) => (dynamics.handed m step).flatMap rearmingOf
  | .order c => m.aside.rearmings c

/-- As for a simulation. -/
def OnLine (m : Joint ε ρ α) (cs : List (Command α)) : Prop :=
  Script.run apply m cs ≠ .error (.fault .instantOverflow) ∧ none ∉ Script.collect apply rearmings m cs

inductive Command.Ahead (shift : Int) : Command α → Command α → Prop
  | plan {s s' : Submission (Plan α)} (h : s.Alike (Plan.likeness α shift) s') : Ahead shift (.plan s) (.plan s')
  | order {c c' : VirtualMesh.Command} (h : c.Ahead shift c') : Ahead shift (.order c) (.order c')

omit [Consensus ε] [NormalSource ρ] in
/-- Tasks of a simulation are known by themselves, and plans by their labels. -/
def name : Task ⊕ Plan α → Task ⊕ α := Sum.map id Plan.label

def likeness (ε α : Type) (shift : Int) : Likeness (Task ⊕ Plan α) where
  shift
  shown _ := true
  task := Sum.LiftRel (Task.Alike (.moved ε shift)) (Plan.Ahead shift)
  shown_eq _ := rfl

variable {shift : Int} {m m' : Joint ε ρ α}

omit [Consensus ε] [NormalSource ρ] in
theorem total_likeness : (likeness ε α shift).Total := fun _ => rfl

omit [Consensus ε] [NormalSource ρ] in
theorem name_eq {x y : Task ⊕ Plan α} (h : (likeness ε α shift).task x y) : name y = name x := by
  cases h with
  | inl h => exact congrArg Sum.inl h.eq_of_moved
  | inr h => exact congrArg Sum.inr h.label_eq

/-- Alike but for the place on the time line. -/
abbrev Alike (shift : Int) (m m' : Joint ε ρ α) : Prop :=
  Machine.Twin (likeness ε α shift) (World.Alike (.moved ε shift)) m m'

omit [NormalSource ρ] in
theorem agree_handler : Handler.Agree (likeness ε α shift) (World.Alike (ρ := ρ) (.moved ε shift))
    (fun f => f = .instantOverflow) (fun x => none ∉ rearmingOf x) (fun x => none ∉ rearmingOf x) handler handler := by
  intro t t' c c' w w' ht hc hw hs hs'
  cases ht with
  | inl ht =>
    refine (hw.handler Kinship.lawful_moved ht rfl hc (fun _ => hs) fun _ => hs').map fun {r r'} hr => ?_
    exact ⟨hr.world, congrArg Sum.inl hr.outcome, List.forall₂_map_left_iff.2 (List.forall₂_map_right_iff.2
      (hr.submissions.imp fun _ _ h => ⟨h.fireAt, .inl h.task⟩))⟩
  | inr hp =>
    refine (Plan.agree_handler hp hc trivial trivial trivial).map fun {r r'} hr => ?_
    exact ⟨hw, congrArg Sum.inr hr.outcome, List.forall₂_map_left_iff.2 (List.forall₂_map_right_iff.2
      (hr.submissions.imp fun _ _ h => ⟨h.fireAt, .inr h.task⟩))⟩

omit [Consensus ε] [NormalSource ρ] in
theorem share_eq {w w' : World ε ρ} (hw : World.Alike (.moved ε shift) w w') {t t' : Instant} (ht : t.Ahead shift t')
    {e e' : Entry (Task ⊕ Plan α)} (he : e.Alike (likeness ε α shift) e') : share w' t' e' = share w t e := by
  obtain ⟨hfire, -, htask⟩ := he
  cases e
  cases e'
  cases htask with
  | inl htask =>
    simp only [share, hfire.le_iff ht, Simulation.Alike.share_eq rfl hw ht hfire htask]
  | inr hp => exact hp.size_eq

omit [Consensus ε] [NormalSource ρ] in
theorem twin_aside (h : Alike shift m m') : Simulation.Alike (.moved ε shift) m.aside m'.aside :=
  ⟨.startingAt .., h.clock, h.world⟩

omit [Consensus ε] [NormalSource ρ] in
theorem twin_takeUp (h : Alike shift m m') {s s' : Simulation ε ρ} (hs : Simulation.Alike (.moved ε shift) s s') :
    Alike shift (m.takeUp s) (m'.takeUp s') := by
  have hworld : Alike shift (m.withWorld s.world) (m'.withWorld s'.world) :=
    ⟨h.alike.withWorld s.world s'.world, h.clock, hs.world⟩
  refine hworld.putAll (List.forall₂_map_left_iff.2 (List.forall₂_map_right_iff.2 ?_))
  exact (hs.submitted (Kinship.total_of_hidden_eq_none rfl)).imp fun _ _ hx => ⟨hx.fireAt, .inl hx.task⟩

theorem apply_still {c : VirtualMesh.Command} (hc : ∀ step, c ≠ .time step) (m : Joint ε ρ α) :
    m.apply (.order c) = (m.aside.apply c).map fun r => (r.1, m.takeUp r.2) := by
  cases c with
  | time step => exact absurd rfl (hc step)
  | _ => rfl

omit [NormalSource ρ] in
theorem rearmings_still {c : VirtualMesh.Command} (hc : ∀ step, c ≠ .time step) (m : Joint ε ρ α) :
    m.rearmings (.order c) = m.aside.rearmings c := by
  cases c with
  | time step => exact absurd rfl (hc step)
  | _ => rfl

theorem twin_apply (h : Alike shift m m') {c c' : Command α} (hc : c.Ahead shift c') (hs : none ∉ m.rearmings c)
    (hs' : none ∉ m'.rearmings c') : Tally (Refusal.Excused fun f => f = .instantOverflow)
      (fun r r' => r'.1 = r.1 ∧ Alike shift r.2 r'.2) (m.apply c) (m'.apply c') := by
  cases hc with
  | plan hput => exact .ok ⟨rfl, h.put ⟨hput.fireAt, .inr hput.task⟩⟩
  | order hc =>
    cases hc with
    | still hstill =>
      rw [rearmings_still hstill] at hs hs'
      rw [apply_still hstill, apply_still hstill]
      exact ((twin_aside h).apply_moved (.still hstill) hs hs').map fun hr => ⟨hr.1, twin_takeUp h hr.2⟩
    | @time step step' hstep =>
      have hexcused : (likeness ε α shift).shift ≠ 0 → (fun f => f = Fault.instantOverflow) .instantOverflow :=
        fun _ => rfl
      have hrun := Dynamics.twin_step dynamics dynamics total_likeness agree_handler
        (fun {t t' m m'} ht hm => ?_) hexcused h hstep (fun x hx => ?_) (fun x hx => ?_)
      · exact (Tally.attempt hrun).map fun hr => ⟨congrArg Answer.count hr.1, hr.2⟩
      · have hshares : m'.queue.map (share m'.world t') = m.queue.map (share m.world t) :=
          (forall₂_iff_map_eq.1 ((hm.queue total_likeness).imp fun _ _ he => (share_eq hm.world ht he).symm)).symm
        exact congrArg (fun l => l.foldr (· + ·) 0) hshares
      · exact fun hnone => hs (List.mem_flatMap.2 ⟨x, hx, hnone⟩)
      · exact fun hnone => hs' (List.mem_flatMap.2 ⟨x, hx, hnone⟩)

theorem shown_eq {t t' : Instant} (ht : t.Ahead shift t') (engines : List ε) {cs cs' : List (Command α)}
    (hcs : List.Forall₂ (Command.Ahead shift) cs cs') (hline : (start t engines : Joint ε ρ α).OnLine cs)
    (hline' : (start t' engines : Joint ε ρ α).OnLine cs') :
    Machine.shown t' name (Script.run apply (start t' engines : Joint ε ρ α) cs') =
      Machine.shown t name (Script.run apply (start t engines : Joint ε ρ α) cs) := by
  have hstart : Alike shift (start t engines : Joint ε ρ α) (start t' engines) :=
    ⟨.startingAt .., ht, .ofEngines (List.forall₂_same.2 fun _ _ => rfl)⟩
  obtain ⟨hrun, hcollect⟩ := hline
  obtain ⟨hrun', hcollect'⟩ := hline'
  have htally := Script.tally_run (Alike shift) hcs hstart
    (fun hm hc hsteady hsteady' => twin_apply hm hc hsteady hsteady') hcollect hcollect'
  exact htally.shown_eq total_likeness ht name_eq World.Alike.eq_of_moved
    (fun e he => Refusal.not_excused fun heq => hrun (heq ▸ he)) fun e he => Refusal.not_excused fun heq => hrun' (heq ▸ he)

end Joint

theorem Instant.ahead_since (t t' : Instant) : t.Ahead (t'.since t) t' := by
  unfold Ahead since
  omega

/-- Where a run starts does not show. Given the same script at the same times since the start, with all instants on the
time line, a machine that runs plans, a simulation, and a simulation with plans in its queue answer the same and end in
the same state as seen from the start, history included, or stop for the same reason. -/
theorem start_unseen [NormalSource ρ] [Consensus ε] (t t' : Instant) (engines : List ε) :
    (∀ {os os' : List (Operation (Plan α))}, List.Forall₂ (Operation.Alike (Plan.likeness α (t'.since t))) os os' →
      Script.run Plan.dynamics.operate (Plan.start t) os ≠ .error .instantOverflow →
      Script.run Plan.dynamics.operate (Plan.start t') os' ≠ .error .instantOverflow →
        Machine.shown t' Plan.label (Script.run Plan.dynamics.operate (Plan.start t') os') =
          Machine.shown t Plan.label (Script.run Plan.dynamics.operate (Plan.start t) os)) ∧
    (∀ {cs cs' : List Command}, List.Forall₂ (Command.Ahead (t'.since t)) cs cs' →
      (Simulation.start t engines : Simulation ε ρ).OnLine cs → (Simulation.start t' engines : Simulation ε ρ).OnLine cs' →
        Machine.shown t' id ((Simulation.start t' engines : Simulation ε ρ).run cs') =
          Machine.shown t id ((Simulation.start t engines : Simulation ε ρ).run cs)) ∧
    ∀ {cs cs' : List (Joint.Command α)}, List.Forall₂ (Joint.Command.Ahead (t'.since t)) cs cs' →
      (Joint.start t engines : Joint ε ρ α).OnLine cs → (Joint.start t' engines : Joint ε ρ α).OnLine cs' →
        Machine.shown t' Joint.name (Script.run Joint.apply (Joint.start t' engines : Joint ε ρ α) cs') =
          Machine.shown t Joint.name (Script.run Joint.apply (Joint.start t engines : Joint ε ρ α) cs) := by
  have hahead := t.ahead_since t'
  exact ⟨Plan.shown_eq hahead, Simulation.shown_eq hahead engines, Joint.shown_eq hahead engines⟩

def early : Instant := default

def late : Instant := ⟨3 * 10 ^ 9 + 7, by decide, by decide⟩

/-- A plan that was due before the start, and submits two more: one for a fixed time, and one for a while after it. -/
def excursion (t : Instant) : Submission (Plan Nat) :=
  ⟨t.later (-5), .mk 1 [(.at (t.later (2 * 10 ^ 7)), .mk 2 []), (.after (10 ^ 7), .mk 3 [])]⟩

def journey (t : Instant) : List Command :=
  [.newPeer 0 Simulation.jittery none, .send 0 [1], .update 0, .time (.runUntil (t.later (3 * 10 ^ 7))), .time .runNext]

def outing (t : Instant) : List (Operation (Plan Nat)) :=
  [.put (excursion t), .time (.advance ⟨10 ^ 6, by decide⟩), .time (.runAll 1)]

theorem ahead_excursion : (excursion early).Alike (Plan.likeness Nat (late.since early)) (excursion late) :=
  ⟨rfl, .mk (.cons (.at rfl) (.mk .nil) (.cons .after (.mk .nil) .nil))⟩

theorem ahead_journey : List.Forall₂ (Command.Ahead (late.since early)) (journey early) (journey late) :=
  .cons (.still fun _ h => by cases h) (.cons (.still fun _ h => by cases h) (.cons (.still fun _ h => by cases h)
    (.cons (.time (.runUntil rfl)) (.cons (.time .runNext) .nil))))

def travelling (t : Instant) : Simulation Engine Random.Stream := .start t [.recording (.initial ⟨[]⟩)]

def touring (t : Instant) : Joint Engine Random.Stream Nat := .start t [.recording (.initial ⟨[]⟩)]

def tour (t : Instant) : List (Joint.Command Nat) := .plan (excursion t) :: (journey t).map .order

/-- Three plans, one message and two ticks, seen from two starts. -/
theorem start_unseen_tour :
    Machine.shown late Plan.label (Script.run Plan.dynamics.operate (Plan.start late) (outing late)) =
      Machine.shown early Plan.label (Script.run Plan.dynamics.operate (Plan.start early) (outing early)) ∧
    Machine.shown late id ((travelling late).run (journey late)) =
      Machine.shown early id ((travelling early).run (journey early)) ∧
    Machine.shown late Joint.name (Script.run Joint.apply (touring late) (tour late)) =
      Machine.shown early Joint.name (Script.run Joint.apply (touring early) (tour early)) ∧
    ((Script.run Joint.apply (touring early) (tour early)).toOption.any fun r => r.2.fired.length = 6) = true := by
  have hended : ∀ {F A : Type} {x : Except F A} {e : F}, x.toOption.isSome = true → x ≠ .error e := by
    rintro F A x e hx rfl
    cases hx
  obtain ⟨hplans, hsimulations, hjoint⟩ :=
    start_unseen (ρ := Random.Stream) (α := Nat) early late [Engine.recording (.initial ⟨[]⟩)]
  refine ⟨hplans ?_ (hended (by decide +kernel)) (hended (by decide +kernel)), hsimulations ahead_journey
    ⟨hended (by decide +kernel), by decide +kernel⟩ ⟨hended (by decide +kernel), by decide +kernel⟩, hjoint ?_
      ⟨hended (by decide +kernel), by decide +kernel⟩ ⟨hended (by decide +kernel), by decide +kernel⟩, by decide +kernel⟩
  · exact .cons (.put ahead_excursion) (.cons (.time .advance) (.cons (.time .runAll) .nil))
  · refine .cons (.plan ahead_excursion) (List.forall₂_map_left_iff.2 (List.forall₂_map_right_iff.2 ?_))
    exact ahead_journey.imp fun _ _ h => .order h

end VirtualMesh

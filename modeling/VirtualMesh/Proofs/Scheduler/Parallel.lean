import Mathlib.Data.List.Forall2
import VirtualMesh.Proofs.Scheduler.History

/-!
# Machines side by side

Two machines that are given like tasks at like times run alike. A `Likeness` says how far apart the two
time lines are, which tasks are alike, and which tasks are shown at all: a hidden task may be in one
machine and not in the other. Without hidden tasks the machines go in step (`Twin`), task by task.
-/

namespace VirtualMesh

/-! ## Computations that end alike -/

/-- Both give results, which are related, or both stop with the same error, or one of them stops with
an error that is excused. -/
inductive Tally {κ α β : Type} (excused : κ → Prop) (P : α → β → Prop) : Except κ α → Except κ β → Prop
  | ok {a : α} {b : β} (h : P a b) : Tally excused P (.ok a) (.ok b)
  | error {e : κ} : Tally excused P (.error e) (.error e)
  | left {e : κ} {y : Except κ β} (h : excused e) : Tally excused P (.error e) y
  | right {e : κ} {x : Except κ α} (h : excused e) : Tally excused P x (.error e)

namespace Tally

variable {κ α β γ δ : Type} {excused : κ → Prop} {P : α → β → Prop} {Q : γ → δ → Prop}
  {x : Except κ α} {y : Except κ β}

theorem bind (h : Tally excused P x y) {f : α → Except κ γ} {g : β → Except κ δ}
    (hfg : ∀ {a b}, P a b → Tally excused Q (f a) (g b)) : Tally excused Q (x >>= f) (y >>= g) := by
  cases h with
  | ok h => exact hfg h
  | error => exact .error
  | left h => exact .left h
  | right h => exact .right h

theorem map (h : Tally excused P x y) {f : α → γ} {g : β → δ} (hfg : ∀ {a b}, P a b → Q (f a) (g b)) :
    Tally excused Q (x.map f) (y.map g) := by
  cases h with
  | ok h => exact .ok (hfg h)
  | error => exact .error
  | left h => exact .left h
  | right h => exact .right h

theorem refl {P : α → α → Prop} (hP : ∀ a, P a a) (x : Except κ α) : Tally excused P x x := by
  cases x with
  | ok a => exact .ok (hP a)
  | error e => exact .error

theorem imp {P' : α → β → Prop} (h : Tally excused P x y) (hP : ∀ {a b}, P a b → P' a b) : Tally excused P' x y := by
  cases h with
  | ok h => exact .ok (hP h)
  | error => exact .error
  | left h => exact .left h
  | right h => exact .right h

theorem map_left (h : Tally excused P x y) {f : α → γ} {Q : γ → β → Prop} (hf : ∀ {a b}, P a b → Q (f a) b) :
    Tally excused Q (x.map f) y := by
  cases h with
  | ok h => exact .ok (hf h)
  | error => exact .error
  | left h => exact .left h
  | right h => exact .right h

theorem map_right (h : Tally excused P x y) {g : β → δ} {Q : α → δ → Prop} (hg : ∀ {a b}, P a b → Q a (g b)) :
    Tally excused Q x (y.map g) := by
  cases h with
  | ok h => exact .ok (hg h)
  | error => exact .error
  | left h => exact .left h
  | right h => exact .right h

theorem flip (h : Tally excused P x y) : Tally excused (fun b a => P a b) y x := by
  cases h with
  | ok h => exact .ok h
  | error => exact .error
  | left h => exact .right h
  | right h => exact .left h

theorem of_map_eq {f : α → γ} {g : β → γ} (h : x.map f = y.map g) : Tally excused (fun a b => f a = g b) x y := by
  cases x with
  | ok a =>
    cases y with
    | ok b => exact .ok (Except.ok.inj h)
    | error e => cases h
  | error e =>
    cases y with
    | ok b => cases h
    | error e' => cases h; exact .error

theorem map_eq (h : Tally excused P x y) (he : ∀ e, ¬excused e) {f : α → γ} {g : β → γ} (hfg : ∀ {a b}, P a b → f a = g b) :
    x.map f = y.map g := by
  cases h with
  | ok h => exact congrArg Except.ok (hfg h)
  | error => rfl
  | left h => exact absurd h (he _)
  | right h => exact absurd h (he _)

theorem excuse {excused' : κ → Prop} (h : Tally excused P x y) (he : ∀ e, excused e → excused' e) :
    Tally excused' P x y := by
  cases h with
  | ok h => exact .ok h
  | error => exact .error
  | left h => exact .left (he _ h)
  | right h => exact .right (he _ h)

theorem of_ok {a : α} {b : β} (h : Tally excused P (.ok a) (.ok b)) : P a b := by
  cases h with
  | ok h => exact h

/-- Where nothing that happened is excused, the two ended alike. -/
theorem elim (h : Tally excused P x y) (hx : ∀ e, x = .error e → ¬excused e) (hy : ∀ e, y = .error e → ¬excused e) :
    (∃ a b, x = .ok a ∧ y = .ok b ∧ P a b) ∨ ∃ e, x = .error e ∧ y = .error e := by
  cases h with
  | ok h => exact .inl ⟨_, _, rfl, rfl, h⟩
  | @error e => exact .inr ⟨e, rfl, rfl⟩
  | left h => exact absurd h (hx _ rfl)
  | right h => exact absurd h (hy _ rfl)

end Tally

/-! ## What is alike -/

theorem forall₂_iff_map_eq {α β γ : Type} {f : α → γ} {g : β → γ} {l : List α} {l' : List β} :
    List.Forall₂ (fun a b => f a = g b) l l' ↔ l.map f = l'.map g := by
  rw [← List.forall₂_map_right_iff, ← List.forall₂_map_left_iff, List.forall₂_eq_eq_eq]

/-- The second of two instants is ahead of the first by `shift` nanoseconds. -/
def Instant.Ahead (shift : Int) (t u : Instant) : Prop := u.nanos = t.nanos + shift

theorem Instant.Ahead.refl (t : Instant) : Ahead 0 t t := (Int.add_zero _).symm

theorem Instant.Ahead.max {shift : Int} {t u t' u' : Instant} (h : Ahead shift t u) (h' : Ahead shift t' u') :
    Ahead shift (max t t') (max u u') := by
  unfold Ahead at *
  rw [nanos_max, nanos_max]
  omega

theorem Instant.Ahead.le_iff {shift : Int} {t u t' u' : Instant} (h : Ahead shift t u) (h' : Ahead shift t' u') :
    u ≤ u' ↔ t ≤ t' := by
  unfold Ahead at *
  rw [le_def, le_def]
  omega

theorem Instant.Ahead.since_eq {shift : Int} {t u t' u' : Instant} (h : Ahead shift t u) (h' : Ahead shift t' u') :
    u.since u' = t.since t' := by
  unfold Ahead at *
  rw [since, since]
  omega

theorem Instant.Ahead.eq {t u : Instant} (h : Ahead 0 t u) : u = t := by
  unfold Ahead at h
  ext
  omega

/-- Two instants moved by the same offset are as far apart as before; only on one line may the end be passed. -/
theorem Instant.Ahead.shift?_cases {shift : Int} {t t' : Instant} (h : Ahead shift t t') (offset : Int) :
    (∃ u u', t.shift? offset = some u ∧ t'.shift? offset = some u' ∧ Ahead shift u u') ∨
      (t.shift? offset = none ∧ t'.shift? offset = none) ∨ (shift ≠ 0 ∧ t.shift? offset = none) ∨
        (shift ≠ 0 ∧ t'.shift? offset = none) := by
  by_cases hshift : shift = 0
  · subst hshift
    cases h.eq
    cases hu : t.shift? offset with
    | none => exact .inr (.inl ⟨rfl, rfl⟩)
    | some u => exact .inl ⟨u, u, rfl, rfl, .refl u⟩
  · cases hu : t.shift? offset with
    | none => exact .inr (.inr (.inl ⟨hshift, rfl⟩))
    | some u =>
      cases hu' : t'.shift? offset with
      | none => exact .inr (.inr (.inr ⟨hshift, rfl⟩))
      | some u' =>
        refine .inl ⟨u, u', rfl, rfl, ?_⟩
        have hmoved := nanos_of_shift? hu
        have hmoved' := nanos_of_shift? hu'
        unfold Ahead at *
        omega

structure Likeness (τ : Type) where
  shift : Int
  shown : τ → Bool
  task : τ → τ → Prop
  shown_eq : ∀ {t u : τ}, task t u → shown u = shown t

variable {τ ο σ σ' : Type}

namespace Likeness

/-- The same comparison from the side of the second machine. -/
def flip (l : Likeness τ) : Likeness τ := ⟨-l.shift, l.shown, fun t u => l.task u t, fun h => (l.shown_eq h).symm⟩

theorem flip_flip (l : Likeness τ) : l.flip.flip = l := by
  simp only [flip, Int.neg_neg]

/-- Nothing is hidden. -/
def Total (l : Likeness τ) : Prop := ∀ t, l.shown t = true

end Likeness

structure Submission.Alike (l : Likeness τ) (s s' : Submission τ) : Prop where
  fireAt : s.fireAt.Ahead l.shift s'.fireAt
  task : l.task s.task s'.task

/-- Hidden tasks use up numbers, so numbers are compared only if there are none. -/
structure Entry.Alike (l : Likeness τ) (e e' : Entry τ) : Prop where
  fireAt : e.fireAt.Ahead l.shift e'.fireAt
  number : l.Total → e'.number = e.number
  task : l.task e.task e'.task

def Entry.isShown (l : Likeness τ) (e : Entry τ) : Bool := l.shown e.task

def Event.entry : Event τ ο → Entry τ
  | .submitted _ e => e
  | .fired _ e _ => e

def Event.isShown (l : Likeness τ) (x : Event τ ο) : Bool := l.shown x.entry.task

inductive Event.Alike (l : Likeness τ) : Event τ ο → Event τ ο → Prop
  | submitted {t t' : Instant} {e e' : Entry τ} (ht : t.Ahead l.shift t') (he : e.Alike l e') :
      Alike l (.submitted t e) (.submitted t' e')
  | fired {t t' : Instant} {e e' : Entry τ} {o : ο} (ht : t.Ahead l.shift t') (he : e.Alike l e') :
      Alike l (.fired t e o) (.fired t' e' o)

structure Reaction.Alike (l : Likeness τ) (W : σ → σ' → Prop) (r : Reaction τ ο σ) (r' : Reaction τ ο σ') : Prop where
  world : W r.world r'.world
  outcome : r'.outcome = r.outcome
  submissions : List.Forall₂ (Submission.Alike l) r.submissions r'.submissions

section
variable {l : Likeness τ}

theorem Instant.Ahead.flip {t u : Instant} (h : t.Ahead l.shift u) : u.Ahead l.flip.shift t := by
  show t.nanos = u.nanos + -l.shift
  unfold Ahead at h
  omega

theorem Entry.Alike.eq {e e' : Entry τ} (h : e.Alike l e') (hshift : l.shift = 0) (htotal : l.Total)
    (htask : ∀ {t u}, l.task t u → u = t) : e' = e := by
  obtain ⟨hfire, hnumber, htask'⟩ := h
  rw [hshift] at hfire
  cases e
  cases e'
  cases hfire.eq
  cases hnumber htotal
  cases htask htask'
  rfl

theorem Event.Alike.eq {x x' : Event τ ο} (h : x.Alike l x') (hshift : l.shift = 0) (htotal : l.Total)
    (htask : ∀ {t u}, l.task t u → u = t) : x' = x := by
  cases h with
  | submitted ht he =>
    rw [hshift] at ht
    rw [he.eq hshift htotal htask, ht.eq]
  | fired ht he =>
    rw [hshift] at ht
    rw [he.eq hshift htotal htask, ht.eq]

theorem Entry.Alike.flip {e e' : Entry τ} (h : e.Alike l e') : e'.Alike l.flip e :=
  ⟨h.fireAt.flip, fun htotal => (h.number htotal).symm, h.task⟩

theorem Event.Alike.flip {x x' : Event τ ο} (h : x.Alike l x') : x'.Alike l.flip x := by
  cases h with
  | submitted ht he => exact .submitted ht.flip he.flip
  | fired ht he => exact .fired ht.flip he.flip

end

namespace Machine

theorem fire_eq_map (h : Handler τ ο σ) (e : Entry τ) (rest : List (Entry τ)) (m : Machine τ ο σ) :
    m.fire h e rest = (h e.task (max m.clock e.fireAt) m.world).map fun r =>
      putAll r.submissions (m.popped e rest r.outcome r.world) := by
  simp only [fire]
  cases h e.task (max m.clock e.fireAt) m.world <;> rfl

theorem runNext_eq (h : Handler τ ο σ) (m : Machine τ ο σ) : m.runNext h = m.runWhile h (fun _ => true) 1 0 := by
  simp only [runNext, runWhile]
  cases m.queue with
  | nil => rfl
  | cons e rest =>
    simp only [if_true]
    cases m.fire h e rest <;> rfl

theorem journal_put (s : Submission τ) (m : Machine τ ο σ) :
    (m.put s).journal = .submitted m.clock (m.entryOf s) :: m.journal := rfl

theorem journal_popped (e : Entry τ) (rest : List (Entry τ)) (outcome : ο) (w : σ) (m : Machine τ ο σ) :
    (m.popped e rest outcome w).journal = .fired (max m.clock e.fireAt) e outcome :: m.journal := rfl

/-- Equal but for the shift of time and for hidden tasks; the clocks and the worlds are left open. -/
structure Alike (l : Likeness τ) (m : Machine τ ο σ) (m' : Machine τ ο σ') : Prop where
  submissions : l.Total → m'.submissions = m.submissions
  queue : List.Forall₂ (Entry.Alike l) (m.queue.filter (Entry.isShown l)) (m'.queue.filter (Entry.isShown l))
  journal : List.Forall₂ (Event.Alike l) (m.journal.filter (Event.isShown l)) (m'.journal.filter (Event.isShown l))
  sorted : m.queue.Pairwise fun a b => a.fireAt ≤ b.fireAt
  sorted' : m'.queue.Pairwise fun a b => a.fireAt ≤ b.fireAt

theorem insert_of_forall_lt {e : Entry τ} {q : List (Entry τ)} (h : ∀ x ∈ q, ¬x.fireAt ≤ e.fireAt) :
    insert e q = e :: q := by
  cases q with
  | nil => rfl
  | cons x xs => rw [insert, if_neg (h x List.mem_cons_self)]

theorem filter_insert {p : Entry τ → Bool} {e : Entry τ} {q : List (Entry τ)}
    (hq : q.Pairwise fun a b => a.fireAt ≤ b.fireAt) :
    (insert e q).filter p = if p e then insert e (q.filter p) else q.filter p := by
  induction q with
  | nil => cases h : p e <;> simp [insert, h]
  | cons x xs ih =>
    obtain ⟨hx, hxs⟩ := List.pairwise_cons.1 hq
    rw [insert]
    split
    · rename_i hle
      rw [List.filter_cons, ih hxs, List.filter_cons]
      cases hpx : p x <;> cases hpe : p e <;> simp [insert, hle]
    · rename_i hlt
      -- the rest of the queue fires later still, so that `e` stands in front also of what is left of it
      have hlate : ∀ y ∈ (x :: xs).filter p, ¬y.fireAt ≤ e.fireAt := by
        intro y hy hle
        rcases List.mem_cons.1 (List.mem_of_mem_filter hy) with rfl | hy
        · exact hlt hle
        · exact hlt (Int.le_trans (hx y hy) hle)
      rw [insert_of_forall_lt hlate, List.filter_cons]

variable {l : Likeness τ}

theorem forall₂_insert {e e' : Entry τ} {q q' : List (Entry τ)} (he : e.Alike l e')
    (hq : List.Forall₂ (Entry.Alike l) q q') : List.Forall₂ (Entry.Alike l) (insert e q) (insert e' q') := by
  induction hq with
  | nil => exact .cons he .nil
  | @cons x x' _ _ hx hq ih =>
    rw [insert, insert]
    by_cases hle : x.fireAt ≤ e.fireAt
    · rw [if_pos hle, if_pos ((hx.fireAt.le_iff he.fireAt).2 hle)]
      exact .cons hx ih
    · rw [if_neg hle, if_neg fun h => hle ((hx.fireAt.le_iff he.fireAt).1 h)]
      exact .cons he (.cons hx hq)

namespace Alike

variable {m : Machine τ ο σ} {m' : Machine τ ο σ'}

theorem startingAt (t t' : Instant) (w : σ) (w' : σ') :
    Alike l (Machine.startingAt t w : Machine τ ο σ) (Machine.startingAt t' w') :=
  ⟨fun _ => rfl, .nil, .nil, .nil, .nil⟩

/-- A machine is like itself, if each of its tasks is. -/
theorem refl {m : Machine τ ο σ} (hshift : l.shift = 0) (htask : ∀ t, l.task t t)
    (hsorted : m.queue.Pairwise fun a b => a.fireAt ≤ b.fireAt) : Alike l m m := by
  have hahead : ∀ t : Instant, t.Ahead l.shift t := fun t => hshift ▸ .refl t
  have hentry : ∀ e : Entry τ, e.Alike l e := fun e => ⟨hahead e.fireAt, fun _ => rfl, htask e.task⟩
  refine ⟨fun _ => rfl, List.forall₂_same.2 fun e _ => hentry e, List.forall₂_same.2 fun x _ => ?_, hsorted, hsorted⟩
  cases x with
  | submitted t e => exact .submitted (hahead t) (hentry e)
  | fired t e o => exact .fired (hahead t) (hentry e)

theorem withWorld (h : Alike l m m') (w : σ) (w' : σ') : Alike l (m.withWorld w) (m'.withWorld w') :=
  ⟨h.submissions, h.queue, h.journal, h.sorted, h.sorted'⟩

theorem moveTo (h : Alike l m m') (t t' : Instant) : Alike l (m.moveTo t) (m'.moveTo t') :=
  ⟨h.submissions, h.queue, h.journal, h.sorted, h.sorted'⟩

theorem flip (h : Alike l m m') : Alike l.flip m' m :=
  ⟨fun htotal => (h.submissions htotal).symm, .flip (h.queue.imp fun _ _ hx => hx.flip),
    .flip (h.journal.imp fun _ _ hx => hx.flip), h.sorted', h.sorted⟩

theorem unflip (h : Alike l.flip m' m) : Alike l m m' := l.flip_flip ▸ h.flip

theorem put_hidden (h : Alike l m m') {s : Submission τ} (hs : l.shown s.task = false) : Alike l (m.put s) m' := by
  have hentry : ¬Entry.isShown l (m.entryOf s) = true := by simp [Entry.isShown, entryOf, hs]
  have hevent : ¬Event.isShown (ο := ο) l (.submitted m.clock (m.entryOf s)) = true := hentry
  refine ⟨fun htotal => absurd (htotal _) hentry, ?_, ?_, pairwise_insert h.sorted, h.sorted'⟩
  · rw [queue_put, filter_insert h.sorted, if_neg hentry]
    exact h.queue
  · rw [journal_put, List.filter_cons_of_neg hevent]
    exact h.journal

theorem put_shown (h : Alike l m m') (hclock : m.clock.Ahead l.shift m'.clock) {s s' : Submission τ}
    (hs : s.Alike l s') (hshown : l.shown s.task = true) : Alike l (m.put s) (m'.put s') := by
  have hentry : (m.entryOf s).Alike l (m'.entryOf s') := ⟨hs.fireAt, h.submissions, hs.task⟩
  have hthis : Entry.isShown l (m.entryOf s) = true := hshown
  have hthat : Entry.isShown l (m'.entryOf s') = true := (l.shown_eq hs.task).trans hshown
  have hevent : Event.isShown (ο := ο) l (.submitted m.clock (m.entryOf s)) = true := hthis
  have hevent' : Event.isShown (ο := ο) l (.submitted m'.clock (m'.entryOf s')) = true := hthat
  refine ⟨fun htotal => congrArg (· + 1) (h.submissions htotal), ?_, ?_, pairwise_insert h.sorted,
    pairwise_insert h.sorted'⟩
  · rw [queue_put, queue_put, filter_insert h.sorted, filter_insert h.sorted', if_pos hthis, if_pos hthat]
    exact forall₂_insert hentry h.queue
  · rw [journal_put, journal_put, List.filter_cons_of_pos hevent, List.filter_cons_of_pos hevent']
    exact .cons (.submitted hclock hentry) h.journal

theorem put (h : Alike l m m') (hclock : m.clock.Ahead l.shift m'.clock) {s s' : Submission τ}
    (hs : s.Alike l s') : Alike l (m.put s) (m'.put s') := by
  cases hshown : l.shown s.task with
  | true => exact h.put_shown hclock hs hshown
  | false =>
    have hshown' : l.flip.shown s'.task = false := (l.shown_eq hs.task).trans hshown
    exact ((h.put_hidden hshown).flip.put_hidden hshown').unflip

theorem putAll (h : Alike l m m') (hclock : m.clock.Ahead l.shift m'.clock) {ss ss' : List (Submission τ)}
    (hss : List.Forall₂ (Submission.Alike l) ss ss') : Alike l (putAll ss m) (putAll ss' m') := by
  induction hss generalizing m m' with
  | nil => exact h
  | cons hs _ ih => exact ih (h.put hclock hs) hclock

theorem putAll_hidden (h : Alike l m m') {ss : List (Submission τ)} (hss : ∀ s ∈ ss, l.shown s.task = false) :
    Alike l (Machine.putAll ss m) m' := by
  induction ss generalizing m with
  | nil => exact h
  | cons s ss ih =>
    obtain ⟨hs, hss⟩ := List.forall_mem_cons.1 hss
    exact ih (h.put_hidden hs) hss

variable {e e' : Entry τ} {rest rest' : List (Entry τ)}

theorem putAll_hidden_right (h : Alike l m m') {ss : List (Submission τ)} (hss : ∀ s ∈ ss, l.shown s.task = false) :
    Alike l m (Machine.putAll ss m') :=
  (h.flip.putAll_hidden (l := l.flip) hss).unflip

theorem popped_hidden (h : Alike l m m') (hq : m.queue = e :: rest) (he : Entry.isShown l e = false) (outcome : ο)
    (w : σ) : Alike l (m.popped e rest outcome w) m' := by
  have hentry : ¬Entry.isShown l e = true := by simp [he]
  have hevent : ¬Event.isShown l (.fired (max m.clock e.fireAt) e outcome) = true := hentry
  refine ⟨h.submissions, ?_, ?_, (List.pairwise_cons.1 (hq ▸ h.sorted)).2, h.sorted'⟩
  · have hqueue := h.queue
    rwa [hq, List.filter_cons_of_neg hentry] at hqueue
  · rw [journal_popped, List.filter_cons_of_neg hevent]
    exact h.journal

/-- The first entries of two queues are alike if they are shown, and so are the rests. -/
theorem queue_cons (h : Alike l m m') (hq : m.queue = e :: rest) (hq' : m'.queue = e' :: rest')
    (he : Entry.isShown l e = true) (he' : Entry.isShown l e' = true) :
    e.Alike l e' ∧ List.Forall₂ (Entry.Alike l) (rest.filter (Entry.isShown l)) (rest'.filter (Entry.isShown l)) := by
  have hqueue := h.queue
  rw [hq, hq', List.filter_cons_of_pos he, List.filter_cons_of_pos he'] at hqueue
  exact List.forall₂_cons.1 hqueue

theorem popped (h : Alike l m m') (hq : m.queue = e :: rest) (hq' : m'.queue = e' :: rest')
    (he : Entry.isShown l e = true) (he' : Entry.isShown l e' = true)
    (hclock : (max m.clock e.fireAt).Ahead l.shift (max m'.clock e'.fireAt)) (outcome : ο) (w : σ) (w' : σ') :
    Alike l (m.popped e rest outcome w) (m'.popped e' rest' outcome w') := by
  obtain ⟨hhead, hrest⟩ := h.queue_cons hq hq' he he'
  have hevent : Event.isShown l (.fired (max m.clock e.fireAt) e outcome) = true := he
  have hevent' : Event.isShown l (.fired (max m'.clock e'.fireAt) e' outcome) = true := he'
  refine ⟨h.submissions, hrest, ?_, (List.pairwise_cons.1 (hq ▸ h.sorted)).2, (List.pairwise_cons.1 (hq' ▸ h.sorted')).2⟩
  rw [journal_popped, journal_popped, List.filter_cons_of_pos hevent, List.filter_cons_of_pos hevent']
  exact .cons (.fired hclock hhead) h.journal

/-- What is read off events that are shown, and is the same for alike ones, is the same for the journals. -/
theorem filterMap_journal (h : Alike l m m') {α : Type} {f f' : Event τ ο → Option α}
    (hhidden : ∀ {x}, Event.isShown l x = false → f x = none ∧ f' x = none) (hf : ∀ {x x'}, x.Alike l x' → f' x' = f x) :
    m'.journal.filterMap f' = m.journal.filterMap f := by
  have hshown : ∀ {g : Event τ ο → Option α}, (∀ {x}, Event.isShown l x = false → g x = none) → ∀ j : List (Event τ ο),
      (j.filter (Event.isShown l)).filterMap g = j.filterMap g := by
    intro g hg j
    rw [List.filterMap_filter]
    refine List.filterMap_congr fun x _ => ?_
    cases hx : Event.isShown l x with
    | true => rfl
    | false => rw [hg hx]; rfl
  rw [← hshown fun hx => (hhidden hx).1, ← hshown fun hx => (hhidden hx).2]
  have hjournal := h.journal
  generalize m.journal.filter (Event.isShown l) = j at hjournal
  generalize m'.journal.filter (Event.isShown l) = j' at hjournal
  induction hjournal with
  | nil => rfl
  | cons hx _ ih => rw [List.filterMap_cons, List.filterMap_cons, hf hx, ih]

/-- If a task is due in one machine and is shown, some task is due in the other. -/
theorem isDue_of_shown (h : Alike l m m') {t t' : Instant} (ht : t.Ahead l.shift t') (hq : m.queue = e :: rest)
    (he : Entry.isShown l e = true) (hdue : e.fireAt ≤ t) : m'.isDue t' = true := by
  have hqueue := h.queue
  rw [hq, List.filter_cons_of_pos he] at hqueue
  obtain ⟨e', rest', hhead, -, hq'⟩ := List.forall₂_cons_left_iff.1 hqueue
  have hmem : e' ∈ m'.queue := List.mem_of_mem_filter (hq' ▸ List.mem_cons_self)
  have hdue' : e'.fireAt ≤ t' := (hhead.fireAt.le_iff ht).2 hdue
  unfold isDue
  cases hfront : m'.queue with
  | nil => rw [hfront] at hmem; cases hmem
  | cons x xs =>
    have hsorted := h.sorted'
    rw [hfront] at hmem hsorted
    refine decide_eq_true ?_
    rcases List.mem_cons.1 hmem with rfl | hmem
    · exact hdue'
    · exact Int.le_trans ((List.pairwise_cons.1 hsorted).1 e' hmem) hdue'

end Alike

/-! ## Runs to a deadline -/

/-- The second machine is the first after all that is due at `t` has run, tasks submitted meanwhile included. -/
inductive Settles (h : Handler τ ο σ) (t : Instant) : Machine τ ο σ → Machine τ ο σ → Prop
  | done {m : Machine τ ο σ} (hdue : m.isDue t = false) : Settles h t m m
  | fire {m m₁ m₂ : Machine τ ο σ} {e : Entry τ} {rest : List (Entry τ)} (hq : m.queue = e :: rest) (he : e.fireAt ≤ t)
      (hfire : m.fire h e rest = .ok m₁) (hrest : Settles h t m₁ m₂) : Settles h t m m₂

section
variable {h : Handler τ ο σ} {t : Instant} {m m₁ m₂ : Machine τ ο σ}

theorem settles_of_runWhile {limit ran n : Nat} (hrun : m.runWhile h (fun u => u ≤ t) limit ran = .ok (n, m₁))
    (hdue : m₁.isDue t = false) : Settles h t m m₁ := by
  induction limit generalizing m ran with
  | zero =>
    cases hrun
    exact .done hdue
  | succ limit ih =>
    simp only [runWhile] at hrun
    cases hq : m.queue with
    | nil =>
      rw [hq] at hrun
      cases hrun
      exact .done hdue
    | cons e rest =>
      simp only [hq] at hrun
      split at hrun
      · rename_i he
        cases hfire : m.fire h e rest with
        | error f => rw [hfire] at hrun; cases hrun
        | ok m₂ =>
          rw [hfire] at hrun
          exact .fire hq (of_decide_eq_true he) hfire (ih hrun)
      · cases hrun
        exact .done hdue

theorem settles_of_runUntil {limit n : Nat} (hrun : m.runUntil h limit t = .ok (n, m₂)) :
    ∃ m₁, Settles h t m m₁ ∧ m₂ = m₁.moveTo t := by
  simp only [runUntil] at hrun
  split at hrun
  · cases hrun
  · rename_i ran m₁ hwhile
    split at hrun
    · cases hrun
    · rename_i hdue
      cases hrun
      exact ⟨m₁, settles_of_runWhile hwhile (by simpa using hdue), rfl⟩

/-- No task that is due moves the clock past the deadline. -/
theorem Settles.max_clock (hsettles : Settles h t m m₁) : max m₁.clock t = max m.clock t := by
  induction hsettles with
  | done => rfl
  | @fire m m₁ m₂ e rest hq he hfire hrest ih =>
    obtain ⟨r, hr, rfl⟩ := fire_eq_ok.1 hfire
    rw [ih, clock_putAll, clock_popped]
    ext
    rw [Instant.le_def] at he
    rw [Instant.nanos_max, Instant.nanos_max, Instant.nanos_max]
    omega

end

/-! ## In step -/

/-- What the tasks of a run are given, one after another: each task with the clock and the world. -/
def handed (h : Handler τ ο σ) (due : Instant → Bool) : Nat → Machine τ ο σ → List (τ × Instant × σ)
  | 0, _ => []
  | limit + 1, m =>
    match m.queue with
    | [] => []
    | e :: rest =>
      if due e.fireAt then
        (e.task, max m.clock e.fireAt, m.world) ::
          match m.fire h e rest with
          | .error _ => []
          | .ok m => handed h due limit m
      else []

/-- Alike, with clocks as far apart as the time lines and with related worlds. -/
structure Twin (l : Likeness τ) (W : σ → σ' → Prop) (m : Machine τ ο σ) (m' : Machine τ ο σ') : Prop where
  alike : Alike l m m'
  clock : m.clock.Ahead l.shift m'.clock
  world : W m.world m'.world

end Machine

/-- Given like tasks, the handlers react alike, as long as what each of them is given is `Steady`. -/
def Handler.Agree (l : Likeness τ) (W : σ → σ' → Prop) (excused : Fault → Prop) (Steady : τ × Instant × σ → Prop)
    (Steady' : τ × Instant × σ' → Prop) (h : Handler τ ο σ) (h' : Handler τ ο σ') : Prop :=
  ∀ ⦃t t' : τ⦄ ⦃c c' : Instant⦄ ⦃w : σ⦄ ⦃w' : σ'⦄, l.task t t' → c.Ahead l.shift c' → W w w' → Steady (t, c, w) →
    Steady' (t', c', w') → Tally excused (Reaction.Alike l W) (h t c w) (h' t' c' w')

namespace Machine.Twin

variable {l : Likeness τ} {W : σ → σ' → Prop} {excused : Fault → Prop} {Steady : τ × Instant × σ → Prop}
  {Steady' : τ × Instant × σ' → Prop} {h : Handler τ ο σ} {h' : Handler τ ο σ'} {m : Machine τ ο σ}
  {m' : Machine τ ο σ'}

theorem putAll {ss ss' : List (Submission τ)} (hm : Twin l W m m') (hss : List.Forall₂ (Submission.Alike l) ss ss') :
    Twin l W (Machine.putAll ss m) (Machine.putAll ss' m') where
  alike := hm.alike.putAll hm.clock hss
  clock := by rw [clock_putAll, clock_putAll]; exact hm.clock
  world := by rw [world_putAll, world_putAll]; exact hm.world

theorem moveTo {t t' : Instant} (hm : Twin l W m m') (ht : t.Ahead l.shift t') : Twin l W (m.moveTo t) (m'.moveTo t') :=
  ⟨hm.alike.moveTo t t', hm.clock.max ht, hm.world⟩

variable (htotal : l.Total)
include htotal

theorem queue (hm : Twin l W m m') : List.Forall₂ (Entry.Alike l) m.queue m'.queue := by
  have hqueue := hm.alike.queue
  rwa [List.filter_eq_self.2 fun e _ => htotal e.task, List.filter_eq_self.2 fun e _ => htotal e.task] at hqueue

theorem journal (hm : Twin l W m m') : List.Forall₂ (Event.Alike l) m.journal m'.journal := by
  have hjournal := hm.alike.journal
  rwa [List.filter_eq_self.2 fun x _ => htotal x.entry.task,
    List.filter_eq_self.2 fun x _ => htotal x.entry.task] at hjournal

theorem submitted (hm : Twin l W m m') :
    List.Forall₂ (fun x x' => Entry.Alike l x.2 x'.2) m.submitted m'.submitted := by
  refine List.rel_filterMap (fun x x' hx => ?_) (List.forall₂_reverse_iff.2 (hm.journal htotal))
  cases hx with
  | submitted _ he => exact .some he
  | fired => exact .none

theorem queue_cases (hm : Twin l W m m') : m.queue = [] ∧ m'.queue = [] ∨ ∃ e rest e' rest',
    m.queue = e :: rest ∧ m'.queue = e' :: rest' ∧ e.Alike l e' := by
  have hqueue := hm.queue htotal
  cases hq : m.queue with
  | nil =>
    rw [hq] at hqueue
    exact .inl ⟨rfl, List.forall₂_nil_left_iff.1 hqueue⟩
  | cons e rest =>
    rw [hq] at hqueue
    obtain ⟨e', rest', he, -, hq'⟩ := List.forall₂_cons_left_iff.1 hqueue
    exact .inr ⟨e, rest, e', rest', rfl, hq', he⟩

theorem isDue_eq (hm : Twin l W m m') {t t' : Instant} (ht : t.Ahead l.shift t') : m'.isDue t' = m.isDue t := by
  rcases hm.queue_cases htotal with ⟨hq, hq'⟩ | ⟨e, rest, e', rest', hq, hq', he⟩
  · simp only [isDue, hq, hq']
  · simp only [isDue, hq, hq']
    exact decide_eq_decide.2 (he.fireAt.le_iff ht)

variable (hagree : Handler.Agree l W excused Steady Steady' h h')
include hagree

theorem fire (hm : Twin l W m m') {e e' : Entry τ} {rest rest' : List (Entry τ)} (hq : m.queue = e :: rest)
    (hq' : m'.queue = e' :: rest') (hs : Steady (e.task, max m.clock e.fireAt, m.world))
    (hs' : Steady' (e'.task, max m'.clock e'.fireAt, m'.world)) :
    Tally excused (Twin l W) (m.fire h e rest) (m'.fire h' e' rest') := by
  have he : Entry.isShown l e = true := htotal _
  have he' : Entry.isShown l e' = true := htotal _
  obtain ⟨hhead, -⟩ := hm.alike.queue_cons hq hq' he he'
  have hclock := hm.clock.max hhead.fireAt
  have hreact := hagree hhead.task hclock hm.world hs hs'
  rw [fire_eq_map, fire_eq_map]
  refine hreact.map fun {r r'} hr => ?_
  rw [hr.outcome]
  exact .putAll ⟨hm.alike.popped hq hq' he he' hclock r.outcome r.world r'.world, hclock, hr.world⟩ hr.submissions

theorem runWhile (hm : Twin l W m m') (due due' : Instant → Bool)
    (hdue : ∀ {t t' : Instant}, t.Ahead l.shift t' → due' t' = due t) {limit : Nat} (ran : Nat)
    (hs : ∀ x ∈ handed h due limit m, Steady x) (hs' : ∀ x ∈ handed h' due' limit m', Steady' x) :
    Tally excused (fun r r' => r'.1 = r.1 ∧ Twin l W r.2 r'.2) (m.runWhile h due limit ran)
      (m'.runWhile h' due' limit ran) := by
  induction limit generalizing m m' ran with
  | zero => exact .ok ⟨rfl, hm⟩
  | succ limit ih =>
    rcases hm.queue_cases htotal with ⟨hq, hq'⟩ | ⟨e, rest, e', rest', hq, hq', he⟩
    · simp only [Machine.runWhile, hq, hq']
      exact .ok ⟨rfl, hm⟩
    · have hsame := hdue he.fireAt
      simp only [handed, hq, hq', hsame] at hs hs'
      simp only [Machine.runWhile, hq, hq', hsame]
      split
      · rename_i hnow
        rw [if_pos hnow] at hs hs'
        obtain ⟨hfirst, hs⟩ := List.forall_mem_cons.1 hs
        obtain ⟨hfirst', hs'⟩ := List.forall_mem_cons.1 hs'
        have hfire := hm.fire htotal hagree hq hq' hfirst hfirst'
        generalize m.fire h e rest = x at hfire hs
        generalize m'.fire h' e' rest' = y at hfire hs'
        cases hfire with
        | ok hm₁ => exact ih hm₁ (ran + 1) hs hs'
        | error => exact .error
        | left hf => exact .left hf
        | right hf => exact .right hf
      · exact .ok ⟨rfl, hm⟩

theorem runUntil (hm : Twin l W m m') {deadline deadline' : Instant} (hdeadline : deadline.Ahead l.shift deadline')
    {limit : Nat} (hs : ∀ x ∈ handed h (fun t => t ≤ deadline) limit m, Steady x)
    (hs' : ∀ x ∈ handed h' (fun t => t ≤ deadline') limit m', Steady' x) :
    Tally excused (fun r r' => r'.1 = r.1 ∧ Twin l W r.2 r'.2) (m.runUntil h limit deadline)
      (m'.runUntil h' limit deadline') := by
  have hrun := hm.runWhile htotal hagree (fun t => t ≤ deadline) (fun t => t ≤ deadline')
    (fun ht => decide_eq_decide.2 (ht.le_iff hdeadline)) 0 hs hs'
  unfold Machine.runUntil
  generalize m.runWhile h (fun t => t ≤ deadline) limit 0 = x at hrun
  generalize m'.runWhile h' (fun t => t ≤ deadline') limit 0 = y at hrun
  cases hrun with
  | @ok r r' hr =>
    obtain ⟨hran, hr⟩ := hr
    simp only [hran, hr.isDue_eq htotal hdeadline]
    split
    · exact .error
    · exact .ok ⟨rfl, hr.moveTo hdeadline⟩
  | error => exact .error
  | left hf => exact .left hf
  | right hf => exact .right hf

end Machine.Twin

/-! ## Steps of the clock -/

/-- The same way to let time pass, on the other time line. -/
inductive ClockStep.Ahead (shift : Int) : ClockStep → ClockStep → Prop
  | runNext : Ahead shift .runNext .runNext
  | runUntil {t t' : Instant} (h : t.Ahead shift t') : Ahead shift (.runUntil t) (.runUntil t')
  | advance {span : Duration} : Ahead shift (.advance span) (.advance span)
  | runAll {limit : Nat} : Ahead shift (.runAll limit) (.runAll limit)

theorem ClockStep.Ahead.refl (step : ClockStep) : Ahead 0 step step := by
  cases step with
  | runNext => exact .runNext
  | runUntil t => exact .runUntil (.refl t)
  | advance span => exact .advance
  | runAll limit => exact .runAll

namespace Dynamics

/-- What the tasks that run while time passes are given. -/
def handed (d : Dynamics τ ο σ) (m : Machine τ ο σ) : ClockStep → List (τ × Instant × σ)
  | .runNext => m.handed d.handler (fun _ => true) 1
  | .runUntil deadline => m.handed d.handler (fun t => t ≤ deadline) (d.allowance deadline m)
  | .advance span =>
    match m.clock.add? span with
    | none => []
    | some deadline => m.handed d.handler (fun t => t ≤ deadline) (d.allowance deadline m)
  | .runAll limit => m.handed d.handler (fun _ => true) limit

theorem twin_step {l : Likeness τ} {W : σ → σ' → Prop} {excused : Fault → Prop} {Steady : τ × Instant × σ → Prop}
    {Steady' : τ × Instant × σ' → Prop} (d : Dynamics τ ο σ) (d' : Dynamics τ ο σ') (htotal : l.Total)
    (hagree : Handler.Agree l W excused Steady Steady' d.handler d'.handler)
    (hallow : ∀ {t t' m m'}, t.Ahead l.shift t' → Machine.Twin l W m m' → d'.allowance t' m' = d.allowance t m)
    (hexcused : l.shift ≠ 0 → excused .instantOverflow) {m : Machine τ ο σ} {m' : Machine τ ο σ'}
    (hm : Machine.Twin l W m m') {step step' : ClockStep} (hstep : step.Ahead l.shift step')
    (hs : ∀ x ∈ d.handed m step, Steady x) (hs' : ∀ x ∈ d'.handed m' step', Steady' x) :
    Tally excused (fun r r' => r'.1 = r.1 ∧ Machine.Twin l W r.2 r'.2) (d.step m step) (d'.step m' step') := by
  have huntil : ∀ {t t' : Instant}, t.Ahead l.shift t' →
      (∀ x ∈ m.handed d.handler (fun u => u ≤ t) (d.allowance t m), Steady x) →
      (∀ x ∈ m'.handed d'.handler (fun u => u ≤ t') (d'.allowance t' m'), Steady' x) →
      Tally excused (fun r r' => r'.1 = r.1 ∧ Machine.Twin l W r.2 r'.2) (d.runUntil t m) (d'.runUntil t' m') := by
    intro t t' ht hs hs'
    rw [runUntil, runUntil, hallow ht hm]
    rw [hallow ht hm] at hs'
    exact hm.runUntil htotal hagree ht hs hs'
  cases hstep with
  | runNext =>
    rw [step, step, Machine.runNext_eq, Machine.runNext_eq]
    exact hm.runWhile htotal hagree _ _ (fun _ => rfl) 0 hs hs'
  | runAll => exact hm.runWhile htotal hagree _ _ (fun _ => rfl) 0 hs hs'
  | runUntil ht => exact huntil ht hs hs'
  | @advance span =>
    simp only [step, advance, handed, Instant.add?] at hs hs' ⊢
    rcases hm.clock.shift?_cases span.nanos with ⟨t, t', ht, ht', hahead⟩ | ⟨ht, ht'⟩ | ⟨hne, ht⟩ | ⟨hne, ht'⟩
    · rw [ht] at hs ⊢
      rw [ht'] at hs' ⊢
      exact huntil hahead hs hs'
    · rw [ht, ht']
      exact .error
    · rw [ht]
      exact .left (hexcused hne)
    · rw [ht']
      exact .right (hexcused hne)

end Dynamics

end VirtualMesh

import VirtualMesh.Proofs.Simulation.Ticks

/-!
# The rate of ticks

Once the clock has been advanced, every tick that is due has fired. A loop that was started at `t` has then
ticked once for each interval that fits between `t` and the clock: weigh each update of a peer by the number
of intervals from it to the clock, and the weight of an update is one more than that of the update by the tick
that it puts into the queue, or zero if that tick is not due.
-/

namespace VirtualMesh

/-- How many intervals fit between `t` and `now`. -/
def rounds (tick : Duration) (now t : Instant) : Nat := (now.since t).toNat / tick.nanos

theorem rounds_of_add? {tick : Duration} (hpos : 0 < tick.nanos) {now t u : Instant}
    (hu : t.add? tick = some u) : rounds tick now t = if u ≤ now then 1 + rounds tick now u else 0 := by
  have hnanos := Instant.nanos_of_add? hu
  unfold rounds Instant.since
  by_cases hle : u ≤ now
  · rw [if_pos hle]
    rw [Instant.le_def] at hle
    rw [show (now.nanos - t.nanos).toNat = (now.nanos - u.nanos).toNat + tick.nanos by omega,
      Nat.add_div_right _ hpos, Nat.add_comm]
  · rw [if_neg hle]
    rw [Instant.le_def] at hle
    exact Nat.div_eq_of_lt (by omega)

theorem rounds_of_add?_eq_none {tick : Duration} {now t : Instant} (h : t.add? tick = none) :
    rounds tick now t = 0 := by
  have hnow := now.lt
  have hge := t.ge
  have hlt := t.lt
  simp only [Instant.add?, Instant.shift?, Instant.ofNanos?, dite_eq_right_iff, reduceCtorEq] at h
  refine Nat.div_eq_of_lt ?_
  unfold Instant.since
  by_contra hle
  exact h ⟨by omega, by omega⟩

theorem sum_rounds {tick : Duration} (hpos : 0 < tick.nanos) (now : Instant) (l : List Instant) :
    (l.map (rounds tick now)).sum = (((l.filterMap (·.add? tick)).filter (· ≤ now)).map fun u =>
      1 + rounds tick now u).sum := by
  induction l with
  | nil => rfl
  | cons t l ih =>
    rw [List.map_cons, List.sum_cons, ih]
    cases hu : t.add? tick with
    | none =>
      simp only [List.filterMap_cons, hu]
      rw [rounds_of_add?_eq_none hu, Nat.zero_add]
    | some u =>
      simp only [List.filterMap_cons, hu]
      rw [rounds_of_add? hpos hu]
      by_cases hle : u ≤ now
      · rw [if_pos hle, List.filter_cons_of_pos (by simpa using hle), List.map_cons, List.sum_cons]
      · rw [if_neg hle, List.filter_cons_of_neg (by simpa using hle), Nat.zero_add]

theorem sum_succ_rounds (tick : Duration) (now : Instant) (l : List Instant) :
    (l.map fun t => 1 + rounds tick now t).sum = l.length + (l.map (rounds tick now)).sum := by
  rw [List.sum_map_add]
  simp

namespace Machine

variable {τ ο σ : Type} {h : Handler τ ο σ} {m m' : Machine τ ο σ}

theorem clock_of_runWhile {deadline : Instant} {limit ran n : Nat}
    (hrun : m.runWhile h (fun t => t ≤ deadline) limit ran = .ok (n, m')) (hle : m.clock ≤ deadline) :
    m'.clock ≤ deadline := by
  induction limit generalizing m ran with
  | zero =>
    cases hrun
    exact hle
  | succ limit ih =>
    simp only [runWhile] at hrun
    cases hq : m.queue with
    | nil =>
      rw [hq] at hrun
      cases hrun
      exact hle
    | cons e rest =>
      simp only [hq] at hrun
      split at hrun
      · rename_i hdue
        cases hfire : m.fire h e rest with
        | error f => rw [hfire] at hrun; cases hrun
        | ok m₁ =>
          rw [hfire] at hrun
          obtain ⟨r, -, rfl⟩ := fire_eq_ok.1 hfire
          refine ih hrun ?_
          rw [clock_putAll, clock_popped, Instant.le_def, Instant.nanos_max]
          simp only [Instant.le_def, decide_eq_true_eq] at hle hdue
          omega
      · cases hrun
        exact hle

theorem later_of_advance {d : Dynamics τ ο σ} {span : Duration} {n : Nat} (hadvance : d.advance span m = .ok (n, m'))
    (hledger : m'.Ledger) : ∀ e ∈ m'.queue, ¬ e.fireAt ≤ m'.clock := by
  simp only [Dynamics.advance] at hadvance
  split at hadvance
  · cases hadvance
  · rename_i deadline hdeadline
    simp only [Dynamics.runUntil, runUntil] at hadvance
    split at hadvance
    · cases hadvance
    · rename_i ran m₁ hrun
      split at hadvance
      · cases hadvance
      · rename_i hdue
        cases hadvance
        have hclock : m₁.clock ≤ deadline := by
          refine clock_of_runWhile hrun ?_
          have := Instant.nanos_of_add? hdeadline
          rw [Instant.le_def]
          omega
        -- nothing is due at the deadline, which the clock has not passed
        intro e he hle
        have hlater := hledger.not_due (Bool.eq_false_iff.2 hdue) he
        rw [clock_moveTo, Instant.le_def, Instant.nanos_max] at hle
        rw [Instant.le_def] at hclock hlater
        omega

end Machine

namespace Simulation

variable {ε ρ : Type} {s : Simulation ε ρ} {p : Nat}

theorem ticked_le_clock (hs : s.Sound) : ∀ t ∈ timesOf p s.ticked, t ≤ s.clock := by
  intro t ht
  obtain ⟨x, hx, rfl⟩ := List.mem_map.1 ht
  obtain ⟨y, hy, htick⟩ := List.mem_filterMap.1 (List.mem_filter.1 hx).1
  obtain ⟨q, -, rfl⟩ := Option.map_eq_some_iff.1 htick
  have hexact := hs.punctual.exact y hy
  have hpast := hs.punctual.past y hy
  rwa [hexact] at hpast

theorem beats_sublist (s : Simulation ε ρ) : s.beats.Sublist s.ticked := by
  unfold beats ticked
  induction s.fired with
  | nil => exact .slnil
  | cons x l ih =>
    by_cases ho : x.2.2 = .ticked .armed
    · simp only [List.filterMap_cons, ho, if_true]
      cases x.2.1.tick? with
      | none => exact ih
      | some b => exact ih.cons_cons b
    · simp only [List.filterMap_cons, ho, if_false]
      cases x.2.1.tick? with
      | none => exact ih
      | some b => exact ih.cons b

theorem Looping.balance (hs : s.Sound) (hlater : ∀ e ∈ s.queue, ¬ e.fireAt ≤ s.clock) {calls : List Instant}
    (h : s.Looping p calls) {tick : Duration} (hpos : 0 < tick.nanos) (htick : s.world.HasTick p tick) :
    (calls.map (rounds tick s.clock)).sum + ((timesOf p s.beats).map (rounds tick s.clock)).sum =
      (timesOf p s.ticked).length + ((timesOf p s.ticked).map (rounds tick s.clock)).sum := by
  -- of the ticks that calls and beats put into the queue, those that are due are the ones that fired
  have hperm : (((calls ++ timesOf p s.beats).filterMap (·.add? tick)).filter (· ≤ s.clock)).Perm
      (timesOf p s.ticked) := by
    have harmings := (timesOf_perm (ticks_perm hs.ledger) p).trans (h tick htick)
    rw [timesOf_append] at harmings
    have hpending : (timesOf p s.pendingTicks).filter (· ≤ s.clock) = [] := by
      refine List.filter_eq_nil_iff.2 fun t ht => ?_
      obtain ⟨x, hx, rfl⟩ := List.mem_map.1 ht
      obtain ⟨e, he, htick⟩ := List.mem_filterMap.1 (List.mem_filter.1 hx).1
      obtain ⟨q, -, rfl⟩ := Option.map_eq_some_iff.1 htick
      simpa using hlater e he
    have hticked : (timesOf p s.ticked).filter (· ≤ s.clock) = timesOf p s.ticked :=
      List.filter_eq_self.2 fun t ht => decide_eq_true (ticked_le_clock hs t ht)
    have hfilter := harmings.filter fun t => decide (t ≤ s.clock)
    rw [List.filter_append, hpending, hticked, List.append_nil] at hfilter
    exact hfilter.symm
  calc (calls.map (rounds tick s.clock)).sum + ((timesOf p s.beats).map (rounds tick s.clock)).sum
      = ((calls ++ timesOf p s.beats).map (rounds tick s.clock)).sum := by
        rw [List.map_append, List.sum_append]
    _ = ((timesOf p s.ticked).map fun u => 1 + rounds tick s.clock u).sum := by
        rw [sum_rounds hpos, (hperm.map _).sum_eq]
    _ = _ := sum_succ_rounds ..

theorem Looping.length_beats (hs : s.Sound) (hlater : ∀ e ∈ s.queue, ¬ e.fireAt ≤ s.clock) {calls : List Instant}
    (h : s.Looping p calls) {tick : Duration} (hpos : 0 < tick.nanos) (htick : s.world.HasTick p tick)
    (hsteady : timesOf p s.ticked = timesOf p s.beats) :
    (timesOf p s.beats).length = (calls.map (rounds tick s.clock)).sum := by
  have hbalance := h.balance hs hlater hpos htick
  rw [hsteady] at hbalance
  omega

theorem Looping.beats_eq_nil (hs : s.Sound) (hlater : ∀ e ∈ s.queue, ¬ e.fireAt ≤ s.clock)
    (h : s.Looping p []) {tick : Duration} (hpos : 0 < tick.nanos) (htick : s.world.HasTick p tick) :
    timesOf p s.beats = [] := by
  have hbalance := h.balance hs hlater hpos htick
  have hsublist : (timesOf p s.beats).Sublist (timesOf p s.ticked) := (s.beats_sublist.filter _).map _
  have hsum := (hsublist.map (rounds tick s.clock)).sum_le_sum fun _ _ => Nat.zero_le _
  -- the beats weigh no more than the ticks, which leaves nothing for the number of ticks
  rw [List.map_nil, List.sum_nil] at hbalance
  have hticked : (timesOf p s.ticked).length = 0 := by omega
  exact List.sublist_nil.1 (List.length_eq_zero_iff.1 hticked ▸ hsublist)

end Simulation

end VirtualMesh

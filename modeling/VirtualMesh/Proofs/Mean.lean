import VirtualMesh.Proofs.Merging

/-!
# The mean

Statistics that are put together from recordings and merges, in whatever shape, are those of one long recording.
Their sum of delays, and with it the mean, lies between the extrema as long as no magnitude leaves its range. For
statistics from anywhere the mean depends on how the number of messages reads as a signed number.
-/

namespace VirtualMesh

namespace Delay

theorem Summable.nanos_sum_eq {ds : List Delay} (h : (ds.map fun d => d.nanos.natAbs).sum < 2 ^ 63) :
    (sum ds).nanos = (ds.map nanos).sum := by
  have hsummable : Summable .zero ds := .inr (by rw [zero]; simpa using h)
  have hle := natAbs_sum_le ds
  rw [hsummable.nanos_sum]
  omega

theorem mul_length_le_sum {ds : List Delay} {least : Delay} (h : ∀ d ∈ ds, least ≤ d) :
    least.nanos * ds.length ≤ (ds.map nanos).sum := by
  have hsum := List.card_nsmul_le_sum (ds.map nanos) least.nanos (List.forall_mem_map.2 h)
  rwa [List.length_map, nsmul_eq_mul, Int.mul_comm] at hsum

theorem sum_le_mul_length {ds : List Delay} {greatest : Delay} (h : ∀ d ∈ ds, d ≤ greatest) :
    (ds.map nanos).sum ≤ greatest.nanos * ds.length := by
  have hsum := List.sum_le_card_nsmul (ds.map nanos) greatest.nanos (List.forall_mem_map.2 h)
  rwa [List.length_map, nsmul_eq_mul, Int.mul_comm] at hsum

theorem ofInt?_eq_some {i : Int} {d : Delay} : ofInt? i = some d ↔ d.nanos = i := by
  rw [ofInt?]
  split
  · rw [Option.some.injEq]
    exact ⟨fun h => h ▸ rfl, fun h => ext h.symm⟩
  · rename_i hrange
    exact ⟨fun h => absurd h.symm (Option.some_ne_none d), fun h => absurd ⟨h ▸ d.ge, h ▸ d.lt⟩ hrange⟩

theorem ofInt?_eq_none {i : Int} : ofInt? i = none ↔ ¬ (-2 ^ 63 ≤ i ∧ i < 2 ^ 63) := by
  rw [ofInt?]
  split
  · rename_i hrange
    exact ⟨fun h => absurd h (Option.some_ne_none _), fun h => absurd hrange h⟩
  · rename_i hrange
    exact ⟨fun _ => hrange, fun _ => rfl⟩

end Delay

/-! ## Recordings and merges -/

namespace PeerStats

/-- What statistics take down. -/
inductive Event where
  | delivery (delay : Delay) (size : Nat)
  | drop

namespace Event

def record (s : PeerStats) : Event → Except Fault PeerStats
  | delivery d size => s.recordDelivery d size
  | drop => s.recordDrop

def deliveries : Event → List (Delay × Nat)
  | delivery d size => [(d, size)]
  | drop => []

def drops : Event → Nat
  | delivery .. => 0
  | drop => 1

end Event

/-- How statistics were put together. -/
inductive Tree where
  | empty
  | record (t : Tree) (e : Event)
  | merge (t u : Tree)

namespace Tree

def eval : Tree → Except Fault PeerStats
  | empty => .ok .empty
  | record t e => do e.record (← t.eval)
  | merge t u => do (← t.eval).merge (← u.eval)

/-- All that was recorded anywhere. -/
def events : Tree → List Event
  | empty => []
  | record t e => t.events ++ [e]
  | merge t u => t.events ++ u.events

def deliveries (t : Tree) : List (Delay × Nat) := t.events.flatMap Event.deliveries

def drops (t : Tree) : Nat := (t.events.map Event.drops).sum

/-- The sum of the magnitudes of all delays. -/
def magnitude (t : Tree) : Nat := (t.deliveries.map fun x => x.1.nanos.natAbs).sum

end Tree

variable {s t : PeerStats} {xs ys : List (Delay × Nat)} {m n : Nat} {e : Event}

theorem Describes.yields_record (h : s.Describes xs n) (e : Event) :
    Yields (e.record s) (xs ++ e.deliveries) (n + e.drops) := by
  cases e with
  | delivery d size => exact h.yields_recordDelivery d size
  | drop =>
    rw [Event.deliveries, List.append_nil]
    exact h.yields_recordDrop

theorem summable_of_magnitude (h : (xs.map fun x => x.1.nanos.natAbs).sum < 2 ^ 63) :
    Delay.Summable .zero (xs.map Prod.fst) := by
  refine .inr ?_
  rw [List.map_map, Delay.zero]
  simpa only [Int.natAbs_zero, Nat.zero_add, Function.comp_def] using h

theorem Countable.append_comm (h : Countable (xs ++ ys) (m + n)) : Countable (ys ++ xs) (n + m) := by
  rw [Nat.add_comm]
  exact h.perm List.perm_append_comm

namespace Tree

theorem yields_eval (t : Tree) (h : t.magnitude < 2 ^ 63) : Yields t.eval t.deliveries t.drops := by
  -- what a part of the tree yields describes the part's own events; a count that does not fit there fits nowhere above
  induction t with
  | empty => exact .inl ⟨describes_empty.countable, _, rfl, describes_empty⟩
  | record t e ih =>
    have hdeliveries : (record t e).deliveries = t.deliveries ++ e.deliveries := by simp [deliveries, events]
    have hdrops : (record t e).drops = t.drops + e.drops := by simp [drops, events]
    rw [magnitude, hdeliveries, List.map_append, List.sum_append] at h
    rw [hdeliveries, hdrops]
    rcases ih (by rw [magnitude]; omega) with ⟨-, s, hs, hdescribes⟩ | ⟨hcount, herror⟩
    · rw [eval, hs]
      exact hdescribes.yields_record e
    · refine .inr ⟨fun h => hcount h.of_append, ?_⟩
      rw [eval, herror]
      rfl
  | merge t u iht ihu =>
    have hdeliveries : (merge t u).deliveries = t.deliveries ++ u.deliveries := by simp [deliveries, events]
    have hdrops : (merge t u).drops = t.drops + u.drops := by simp [drops, events]
    have hsum := summable_of_magnitude h
    rw [magnitude, hdeliveries, List.map_append, List.sum_append] at h
    rw [hdeliveries] at hsum ⊢
    rw [hdrops]
    rcases iht (by rw [magnitude]; omega) with ⟨-, s, hs, hdescribes⟩ | ⟨hcount, herror⟩
    · rcases ihu (by rw [magnitude]; omega) with ⟨-, r, hr, hdescribes'⟩ | ⟨hcount, herror⟩
      · rw [eval, hs, hr]
        exact hdescribes.yields_merge hdescribes' hsum
      · refine .inr ⟨fun h => hcount h.append_comm.of_append, ?_⟩
        rw [eval, hs, herror]
        rfl
    · refine .inr ⟨fun h => hcount h.of_append, ?_⟩
      rw [eval, herror]
      rfl

end Tree

/-! ## The number of messages as a divisor -/

/-- The number of messages as a signed number of 64 bits. -/
def signedMessages (s : PeerStats) : Int :=
  if s.messages.toNat < 2 ^ 63 then s.messages.toNat else s.messages.toNat - 2 ^ 64

theorem toInt_toInt64_messages (s : PeerStats) : s.messages.toInt64.toInt = s.signedMessages := by
  have hsame : s.messages.toBitVec.toNat = s.messages.toNat := rfl
  show s.messages.toBitVec.toInt = _
  rw [signedMessages, BitVec.toInt_eq_toNat_cond, hsame]
  split <;> split <;> omega

theorem meanLatency_eq (hmessages : 1 ≤ s.messages.toNat) : s.meanLatency =
    (Delay.ofInt? (s.latencies.total.nanos.tdiv s.signedMessages)).elim (.error .quotientOverflow)
      fun mean => .ok (some mean) := by
  have hne : s.messages ≠ 0 := fun h => by
    rw [h] at hmessages
    exact absurd hmessages (by decide)
  rw [meanLatency, if_neg hne, toInt_toInt64_messages]
  cases Delay.ofInt? (s.latencies.total.nanos.tdiv s.signedMessages) <;> rfl

theorem meanLatency_eq_some (hmessages : 1 ≤ s.messages.toNat) {mean : Delay} :
    s.meanLatency = .ok (some mean) ↔ mean.nanos = s.latencies.total.nanos.tdiv s.signedMessages := by
  rw [meanLatency_eq hmessages, ← Delay.ofInt?_eq_some]
  cases Delay.ofInt? (s.latencies.total.nanos.tdiv s.signedMessages) <;> simp

theorem meanLatency_eq_error (hmessages : 1 ≤ s.messages.toNat) : s.meanLatency = .error .quotientOverflow ↔
    ¬ (-2 ^ 63 ≤ s.latencies.total.nanos.tdiv s.signedMessages ∧
      s.latencies.total.nanos.tdiv s.signedMessages < 2 ^ 63) := by
  rw [meanLatency_eq hmessages, ← Delay.ofInt?_eq_none]
  cases Delay.ofInt? (s.latencies.total.nanos.tdiv s.signedMessages) <;> simp

/-! ## Between the extrema -/

theorem le_tdiv_and_tdiv_le {a lo hi k : Int} (hk : 0 < k) (hlo : lo * k ≤ a) (hhi : a ≤ hi * k) :
    lo ≤ a.tdiv k ∧ a.tdiv k ≤ hi := by
  have hleast := Int.tdiv_le_tdiv hk hlo
  have hgreatest := Int.tdiv_le_tdiv hk hhi
  rw [Int.mul_tdiv_cancel _ (Int.ne_of_gt hk)] at hleast hgreatest
  exact ⟨hleast, hgreatest⟩

/-- The sum and the mean of the delays lie between the extrema. -/
structure Between (s : PeerStats) (lo hi mean : Delay) : Prop where
  min : s.latencies.min = some lo
  max : s.latencies.max = some hi
  le_total : lo.nanos * s.messages.toNat ≤ s.latencies.total.nanos
  total_le : s.latencies.total.nanos ≤ hi.nanos * s.messages.toNat
  meanLatency : s.meanLatency = .ok (some mean)
  le_mean : lo ≤ mean
  mean_le : mean ≤ hi

theorem Describes.between (h : s.Describes xs n) (hmagnitude : (xs.map fun x => x.1.nanos.natAbs).sum < 2 ^ 63)
    (hlength : xs.length < 2 ^ 63) (hpos : 0 < s.messages.toNat) : ∃ lo hi mean, s.Between lo hi mean := by
  have hne : xs.map Prod.fst ≠ [] := by
    rw [h.messages] at hpos
    exact fun hnil => absurd (List.map_eq_nil_iff.1 hnil) (List.ne_nil_of_length_pos hpos)
  obtain ⟨lo, hlo⟩ := Option.ne_none_iff_exists'.1 fun hnone => hne (h.latencies.min_eq_none.1 hnone)
  obtain ⟨hi, hhi⟩ := Option.ne_none_iff_exists'.1 fun hnone => hne (h.latencies.max_eq_none.1 hnone)
  have htotal : s.latencies.total.nanos = ((xs.map Prod.fst).map Delay.nanos).sum := by
    rw [h.latencies.total]
    refine Delay.Summable.nanos_sum_eq ?_
    rwa [List.map_map]
  have hcount : s.messages.toNat = (xs.map Prod.fst).length := by rw [h.messages, List.length_map]
  have hle : lo.nanos * s.messages.toNat ≤ s.latencies.total.nanos := by
    rw [htotal, hcount]
    exact Delay.mul_length_le_sum (h.latencies.least lo hlo).2
  have hge : s.latencies.total.nanos ≤ hi.nanos * s.messages.toNat := by
    rw [htotal, hcount]
    exact Delay.sum_le_mul_length (h.latencies.greatest hi hhi).2
  have hsigned : s.signedMessages = s.messages.toNat := if_pos (h.messages ▸ hlength)
  obtain ⟨hmean, hmean'⟩ := le_tdiv_and_tdiv_le (Int.natCast_pos.2 hpos) hle hge
  have hlower := lo.ge
  have hupper := hi.lt
  let mean : Delay := ⟨s.latencies.total.nanos.tdiv s.messages.toNat, by omega, by omega⟩
  have hmeanLatency : s.meanLatency = .ok (some mean) := (meanLatency_eq_some hpos).2 (by rw [hsigned])
  exact ⟨lo, hi, mean, hlo, hhi, hle, hge, hmeanLatency, hmean, hmean'⟩

namespace Tree

theorem yields_foldlM (es : List Event)
    (h : ((es.flatMap Event.deliveries).map fun x => x.1.nanos.natAbs).sum < 2 ^ 63) :
    Yields (es.foldlM Event.record .empty) (es.flatMap Event.deliveries) (es.map Event.drops).sum := by
  have hyields := describes_empty.yields_foldlM (l := es) (f := Event.record) (n := Event.drops)
    (fun e _ s ys m hs _ => hs.yields_record e) (summable_of_magnitude h)
  rwa [List.nil_append, Nat.zero_add] at hyields

/-- Statistics put together in any shape are those of one recording of the same events in any order, and the mean of
what they have taken down lies between the extrema. -/
theorem eval_eq_foldlM {t : Tree} (hmagnitude : t.magnitude < 2 ^ 63) (hlength : t.deliveries.length < 2 ^ 63) :
    (∀ es : List Event, es.Perm t.events → t.eval = es.foldlM Event.record .empty) ∧
      ((∃ s, t.eval = .ok s) ↔ (t.deliveries.map Prod.snd).sum < 2 ^ 64 ∧ t.drops < 2 ^ 64) ∧
      ∀ s, t.eval = .ok s → 0 < s.messages.toNat → ∃ lo hi mean, s.Between lo hi mean := by
  have hyields := t.yields_eval hmagnitude
  refine ⟨fun es hperm => ?_, ?_, fun s hs hpos => ?_⟩
  · have hdeliveries : t.deliveries.Perm (es.flatMap Event.deliveries) := hperm.symm.flatMap_right _
    have hdrops : t.drops = (es.map Event.drops).sum := ((hperm.map Event.drops).sum_eq).symm
    have hreordered := hyields.perm hdeliveries (summable_of_magnitude hmagnitude)
    rw [magnitude, (hdeliveries.map _).sum_eq] at hmagnitude
    rw [hdrops] at hreordered
    exact hreordered.unique (yields_foldlM es hmagnitude)
  · rcases hyields with ⟨hcount, s, hs, -⟩ | ⟨hcount, herror⟩
    · exact ⟨fun _ => ⟨hcount.bytes, hcount.dropped⟩, fun _ => ⟨s, hs⟩⟩
    · refine ⟨fun ⟨s, hs⟩ => ?_, fun ⟨hbytes, hdropped⟩ => absurd ⟨by omega, hbytes, hdropped⟩ hcount⟩
      cases herror.symm.trans hs
  · rcases hyields with ⟨-, s', hs', hdescribes⟩ | ⟨-, herror⟩
    · cases hs.symm.trans hs'
      exact hdescribes.between hmagnitude hlength hpos
    · cases herror.symm.trans hs

/-- Two statistics with delays on both sides of zero, merged with empty ones and with each other. -/
def mixed : Tree :=
  .merge (.merge .empty (.record (.record .empty (.delivery ⟨-7, by decide, by decide⟩ 3)) .drop))
    (.record (.record (.merge .empty .empty) (.delivery ⟨4, by decide, by decide⟩ 0))
      (.delivery ⟨-2, by decide, by decide⟩ 9))

theorem eval_eq_foldlM_mixed : mixed.magnitude = 13 ∧ mixed.deliveries.length = 3 ∧
    ∃ s, mixed.eval = .ok s ∧ mixed.events.reverse.foldlM Event.record .empty = .ok s ∧
      ∃ lo hi mean, s.Between lo hi mean ∧ mean.nanos = -1 := by
  have hmagnitude : mixed.magnitude = 13 := by decide
  have hlength : mixed.deliveries.length = 3 := by decide
  obtain ⟨hsame, hok, hbetween⟩ := eval_eq_foldlM (t := mixed) (by rw [hmagnitude]; decide) (by rw [hlength]; decide)
  obtain ⟨s, hs⟩ := hok.2 (by decide)
  obtain ⟨lo, hi, mean, hmean⟩ := hbetween s hs (by cases hs; decide)
  have hnanos : mean.nanos = -1 := by
    have hquotient := hmean.meanLatency
    cases hs
    exact ((meanLatency_eq_some (by decide)).1 hquotient).trans (by decide)
  exact ⟨hmagnitude, hlength, s, hs, (hsame _ mixed.events.reverse_perm).symm.trans hs, lo, hi, mean, hmean, hnanos⟩

end Tree

/-! ## Statistics from anywhere -/

theorem tdiv_eq_zero_iff {a b : Int} (hb : b ≠ 0) : a.tdiv b = 0 ↔ a.natAbs < b.natAbs := by
  have habs : (a.tdiv b).natAbs = a.natAbs / b.natAbs := Int.natAbs_tdiv a b
  rw [← Int.natAbs_eq_zero, habs, Nat.div_eq_zero_iff_lt (Int.natAbs_pos.2 hb)]

theorem tdiv_nonpos {a b : Int} (ha : a ≤ 0) (hb : 0 ≤ b) : a.tdiv b ≤ 0 := by
  have hneg := Int.tdiv_nonneg (Int.neg_nonneg_of_nonpos ha) hb
  rw [Int.neg_tdiv] at hneg
  omega

/-- Quotients by a negative and by a positive number agree only if both are zero. -/
theorem tdiv_eq_tdiv_iff {a b c : Int} (hb : b < 0) (hc : 0 < c) :
    a.tdiv b = a.tdiv c ↔ a.natAbs < b.natAbs ∧ a.natAbs < c.natAbs := by
  rw [← tdiv_eq_zero_iff (Int.ne_of_lt hb), ← tdiv_eq_zero_iff (Int.ne_of_gt hc)]
  refine ⟨fun heq => ?_, fun ⟨hzero, hzero'⟩ => hzero.trans hzero'.symm⟩
  rcases Int.le_total 0 a with ha | ha
  · have hle := Int.tdiv_nonpos_of_nonneg_of_nonpos ha (Int.le_of_lt hb)
    have hge := Int.tdiv_nonneg ha (Int.le_of_lt hc)
    omega
  · have hge := Int.tdiv_nonneg_of_nonpos_of_nonpos ha (Int.le_of_lt hb)
    have hle := tdiv_nonpos ha (Int.le_of_lt hc)
    omega

/-- One quotient of signed 64-bit numbers is none. -/
theorem tdiv_mem_range_iff {a b : Int} (ha : -2 ^ 63 ≤ a ∧ a < 2 ^ 63) (hb : b ≠ 0) :
    (-2 ^ 63 ≤ a.tdiv b ∧ a.tdiv b < 2 ^ 63) ↔ ¬ (a = -2 ^ 63 ∧ b = -1) := by
  have habs : (a.tdiv b).natAbs = a.natAbs / b.natAbs := Int.natAbs_tdiv a b
  constructor
  · rintro ⟨-, hlt⟩ ⟨rfl, rfl⟩
    exact absurd hlt (by decide)
  · intro hne
    by_cases hone : b.natAbs = 1
    · rcases Int.natAbs_eq_iff.1 hone with rfl | rfl
      · rw [Int.natCast_one, Int.tdiv_one]
        exact ha
      · rw [Int.natCast_one, Int.tdiv_neg, Int.tdiv_one]
        omega
    · have hhalf : a.natAbs / b.natAbs ≤ a.natAbs / 2 := Nat.div_le_div_left (by omega) (by decide)
      omega

theorem signedMessages_ne_zero (hmessages : 1 ≤ s.messages.toNat) : s.signedMessages ≠ 0 := by
  have hlt := s.messages.toNat_lt
  rw [signedMessages]
  split <;> omega

/-- The mean as the quotient by the signed number of messages, and how far that is the one by the number itself. -/
structure Averages (s : PeerStats) (mean : Delay) : Prop where
  quotient : mean.nanos = s.latencies.total.nanos.tdiv s.signedMessages
  exact_iff : mean.nanos = s.latencies.total.nanos.tdiv s.messages.toNat ↔
    s.messages.toNat < 2 ^ 63 ∨ s.latencies.total.nanos.natAbs + s.messages.toNat < 2 ^ 64
  sign : s.messages.toNat < 2 ^ 63 →
    (0 ≤ s.latencies.total.nanos → 0 ≤ mean.nanos) ∧ (s.latencies.total.nanos ≤ 0 → mean.nanos ≤ 0)
  turned : 2 ^ 63 ≤ s.messages.toNat →
    (0 ≤ s.latencies.total.nanos → mean.nanos ≤ 0) ∧ (s.latencies.total.nanos ≤ 0 → 0 ≤ mean.nanos)

theorem averages_of_quotient (hmessages : 1 ≤ s.messages.toNat) {mean : Delay}
    (hquotient : mean.nanos = s.latencies.total.nanos.tdiv s.signedMessages) : s.Averages mean := by
  have hlt := s.messages.toNat_lt
  have hge := s.latencies.total.ge
  by_cases hhalf : s.messages.toNat < 2 ^ 63
  · have hsigned : s.signedMessages = s.messages.toNat := if_pos hhalf
    have hpos : (0 : Int) ≤ s.messages.toNat := Int.natCast_nonneg _
    rw [hsigned] at hquotient
    refine ⟨by rw [hquotient, hsigned], ⟨fun _ => .inl hhalf, fun _ => hquotient⟩, fun _ => ?_, fun h => by omega⟩
    rw [hquotient]
    exact ⟨fun h => Int.tdiv_nonneg h hpos, fun h => tdiv_nonpos h hpos⟩
  · have hsigned : s.signedMessages = s.messages.toNat - 2 ^ 64 := if_neg hhalf
    have hneg : s.signedMessages < 0 := by omega
    have hle := Int.le_of_lt hneg
    refine ⟨hquotient, ?_, fun h => absurd h hhalf, fun _ => ?_⟩
    · rw [hquotient, tdiv_eq_tdiv_iff hneg (Int.natCast_pos.2 hmessages)]
      omega
    · rw [hquotient]
      exact ⟨fun h => Int.tdiv_nonpos_of_nonneg_of_nonpos h hle, fun h => Int.tdiv_nonneg_of_nonpos_of_nonpos h hle⟩

/-- The mean is the quotient of sum and number of messages, cut toward zero, up to half the range of counts. Above, the
number of messages reads as a negative one: the quotient is by that, and in one case there is none. -/
theorem meanLatency_cases (hmessages : 1 ≤ s.messages.toNat) :
    (s.meanLatency = .error .quotientOverflow ↔
      s.messages.toNat = 2 ^ 64 - 1 ∧ s.latencies.total.nanos = -2 ^ 63) ∧
    (¬ (s.messages.toNat = 2 ^ 64 - 1 ∧ s.latencies.total.nanos = -2 ^ 63) →
      ∃ mean, s.meanLatency = .ok (some mean) ∧ s.Averages mean) := by
  have hlt := s.messages.toNat_lt
  have hrange := tdiv_mem_range_iff ⟨s.latencies.total.ge, s.latencies.total.lt⟩ (signedMessages_ne_zero hmessages)
  have hlast : s.signedMessages = -1 ↔ s.messages.toNat = 2 ^ 64 - 1 := by
    rw [signedMessages]
    split <;> omega
  rw [hlast, and_comm (b := s.messages.toNat = 2 ^ 64 - 1)] at hrange
  refine ⟨?_, fun hne => ?_⟩
  · rw [meanLatency_eq_error hmessages, hrange, not_not]
  · obtain ⟨hmin, hmax⟩ := hrange.2 hne
    let mean : Delay := ⟨s.latencies.total.nanos.tdiv s.signedMessages, hmin, hmax⟩
    exact ⟨mean, (meanLatency_eq_some hmessages).2 rfl, averages_of_quotient hmessages rfl⟩

/-- Statistics with the last count, and a total of five nanoseconds. -/
def full : PeerStats := ⟨UInt64.ofNat (2 ^ 64 - 1), 0, 0, none, none, ⟨5, by decide, by decide⟩⟩

theorem meanLatency_cases_full : 1 ≤ full.messages.toNat ∧ ∃ mean, full.meanLatency = .ok (some mean) ∧
    full.Averages mean := by
  have hmessages : 1 ≤ full.messages.toNat := by decide +kernel
  exact ⟨hmessages, (meanLatency_cases hmessages).2 (by decide +kernel)⟩

/-- A mean below zero of delays that add up to more than zero, and a mean that is no delay. -/
theorem mean_below_zero : (0 < full.latencies.total.nanos ∧
      full.meanLatency = .ok (some ⟨-5, by decide, by decide⟩) ∧
      full.latencies.total.nanos.tdiv full.messages.toNat = 0) ∧
    meanLatency { full with latencies.total := .bottom } = .error .quotientOverflow := by
  decide +kernel

end PeerStats

end VirtualMesh

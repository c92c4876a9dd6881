import VirtualMesh.Proofs.Stats

/-!
# Statistics in any order

Counts and extrema do not depend on the order of the deliveries, nor on how they are split among several
statistics that are merged in the end. The sum of the delays stops at the ends of its range, so it depends on
neither only if it cannot stop at one end and turn back: if no delay lies below zero, or if the magnitudes of
all of them together are within the range.
-/

namespace VirtualMesh

namespace Delay

/-- No delay is below zero, or the magnitudes of all of them and of the start together are within the range. -/
def Summable (start : Delay) (ds : List Delay) : Prop :=
  (∀ d ∈ ds, 0 ≤ d.nanos) ∨ start.nanos.natAbs + (ds.map fun d => d.nanos.natAbs).sum < 2 ^ 63

theorem natAbs_sum_le (ds : List Delay) :
    (ds.map nanos).sum.natAbs ≤ (ds.map fun d => d.nanos.natAbs).sum := by
  induction ds with
  | nil => exact Nat.le_refl 0
  | cons d ds ih =>
    simp only [List.map_cons, List.sum_cons]
    omega

namespace Summable

variable {start : Delay} {ds es : List Delay}

theorem perm (h : Summable start ds) (hperm : ds.Perm es) : Summable start es := by
  refine h.imp (fun hds d hd => hds d (hperm.mem_iff.2 hd)) fun hds => ?_
  rwa [← (hperm.map fun d => d.nanos.natAbs).sum_eq]

theorem sublist (h : Summable start es) (hsub : ds.Sublist es) : Summable start ds := by
  refine h.imp (fun hes d hd => hes d (hsub.subset hd)) fun hes => ?_
  refine Nat.lt_of_le_of_lt (Nat.add_le_add_left ?_ _) hes
  exact (hsub.map _).sum_le_sum fun _ _ => Nat.zero_le _

theorem nanos_foldl_add (h : Summable start ds) :
    (ds.foldl (· + ·) start).nanos = min (start.nanos + (ds.map nanos).sum) (2 ^ 63 - 1) := by
  rcases h with h | h
  · exact Delay.nanos_foldl_add h start
  · have hexact : (ds.foldl (· + ·) start).nanos = start.nanos + (ds.map nanos).sum :=
      nanos_foldl_add_of_inits fun es hes => by
        -- the magnitudes of the delays at the front bound the total so far
        have hsub := ((List.mem_inits es ds).1 hes).sublist.map fun d => d.nanos.natAbs
        have hfront := hsub.sum_le_sum fun _ _ => Nat.zero_le _
        have hle := natAbs_sum_le es
        omega
    have hle := natAbs_sum_le ds
    omega

theorem nanos_sum (h : Summable .zero ds) : (sum ds).nanos = min (ds.map nanos).sum (2 ^ 63 - 1) := by
  rw [sum, h.nanos_foldl_add]
  simp [zero]

theorem natAbs_nanos_sum_lt (h : Summable .zero ds) : (sum ds).nanos.natAbs < 2 ^ 63 := by
  have hle := natAbs_sum_le ds
  rw [h.nanos_sum]
  rcases h with h | h
  · have hpos : 0 ≤ (ds.map nanos).sum := sum_map_nanos_nonneg h
    omega
  · omega

theorem foldl_add_perm (h : Summable start ds) (hperm : ds.Perm es) :
    ds.foldl (· + ·) start = es.foldl (· + ·) start := by
  ext
  rw [h.nanos_foldl_add, (h.perm hperm).nanos_foldl_add, (hperm.map nanos).sum_eq]

theorem sum_add (h : Summable .zero (ds ++ es)) : sum ds + sum es = sum (ds ++ es) := by
  have hds := h.sublist (List.sublist_append_left ds es)
  have hes := h.sublist (List.sublist_append_right ds es)
  ext
  rw [nanos_add, hds.nanos_sum, hes.nanos_sum, h.nanos_sum, List.map_append, List.sum_append]
  rcases h with h | h
  · obtain ⟨hds, hes⟩ := List.forall_mem_append.1 h
    have hds : 0 ≤ (ds.map nanos).sum := sum_map_nanos_nonneg hds
    have hes : 0 ≤ (es.map nanos).sum := sum_map_nanos_nonneg hes
    omega
  · have hds := natAbs_sum_le ds
    have hes := natAbs_sum_le es
    rw [List.map_append, List.sum_append] at h
    omega

end Summable

theorem nanos_min (a b : Delay) : (min a b).nanos = min a.nanos b.nanos := by
  rcases min_cases a b with ⟨h, hle⟩ | ⟨h, hle⟩
  · rw [h, Int.min_eq_left hle]
  · rw [h, Int.min_eq_right hle]

theorem nanos_max (a b : Delay) : (max a b).nanos = max a.nanos b.nanos := by
  rcases max_cases a b with ⟨h, hle⟩ | ⟨h, hle⟩
  · rw [h, Int.max_eq_right hle]
  · rw [h, Int.max_eq_left hle]

theorem min_comm (a b : Delay) : min a b = min b a := by
  ext
  rw [nanos_min, nanos_min, Int.min_comm]

theorem max_comm (a b : Delay) : max a b = max b a := by
  ext
  rw [nanos_max, nanos_max, Int.max_comm]

theorem min_right_comm (a b c : Delay) : min (min a b) c = min (min a c) b := by
  ext
  simp only [nanos_min]
  omega

theorem max_right_comm (a b c : Delay) : max (max a b) c = max (max a c) b := by
  ext
  simp only [nanos_max]
  omega

end Delay

namespace LatencyStats

variable {s t : LatencyStats} {ds es : List Delay}

theorem Describes.perm (h : s.Describes ds) (hperm : ds.Perm es) (hsum : Delay.Summable .zero ds) : s.Describes es :=
  .of_extremes (h.isLeast.perm hperm) (h.isGreatest.perm hperm) (h.total.trans (hsum.foldl_add_perm hperm))

theorem Describes.merge (hs : s.Describes ds) (ht : t.Describes es) (hsum : Delay.Summable .zero (ds ++ es)) :
    (s.merge t).Describes (ds ++ es) := by
  refine .of_extremes ?_ ?_ ?_
  · exact hs.isLeast.append Delay.le_trans ht.isLeast least_eq_none fun _ => least_eq_some
  · exact hs.isGreatest.append (fun a b c hab hbc => Delay.le_trans c b a hbc hab) ht.isGreatest greatest_eq_none
      fun _ => greatest_eq_some
  · rw [← hsum.sum_add, ← hs.total, ← ht.total]
    rfl

theorem least_right_comm (o : Option Delay) (a b : Delay) :
    least (least o (some a)) (some b) = least (least o (some b)) (some a) := by
  cases o with
  | none => simp only [least, Delay.min_comm]
  | some x => simp only [least, Delay.min_right_comm]

theorem greatest_right_comm (o : Option Delay) (a b : Delay) :
    greatest (greatest o (some a)) (some b) = greatest (greatest o (some b)) (some a) := by
  cases o with
  | none => simp only [greatest, Delay.max_comm]
  | some x => simp only [greatest, Delay.max_right_comm]

theorem foldl_record (s : LatencyStats) (ds : List Delay) : ds.foldl record s =
    ⟨ds.foldl (fun o d => least o (some d)) s.min, ds.foldl (fun o d => greatest o (some d)) s.max,
      ds.foldl (· + ·) s.total⟩ := by
  induction ds generalizing s with
  | nil => rfl
  | cons d ds ih => exact ih (s.record d)

/-- From any start, extrema and sum come out the same in whatever order the delays are recorded. -/
theorem foldl_record_perm (h : Delay.Summable s.total ds) (hperm : ds.Perm es) : ds.foldl record s = es.foldl record s := by
  rw [foldl_record, foldl_record, h.foldl_add_perm hperm,
    hperm.foldl_eq' (fun a _ b _ o => least_right_comm o a b), hperm.foldl_eq' (fun a _ b _ o => greatest_right_comm o a b)]

end LatencyStats

namespace PeerStats

variable {s t u : PeerStats} {xs ys : List (Delay × Nat)} {m n : Nat}

theorem merge_eq_ok : s.merge t = .ok u ↔ u.messages.toNat = s.messages.toNat + t.messages.toNat ∧
    u.bytes.toNat = s.bytes.toNat + t.bytes.toNat ∧ u.dropped.toNat = s.dropped.toNat + t.dropped.toNat ∧
      u.latencies = s.latencies.merge t.latencies := by
  constructor
  · intro h
    simp only [merge, bind, Except.bind] at h
    split at h
    · cases h
    · rename_i messages hmessages
      split at h
      · cases h
      · rename_i bytes hbytes
        split at h
        · cases h
        · rename_i dropped hdropped
          cases h
          exact ⟨addCount_eq_ok.1 hmessages, addCount_eq_ok.1 hbytes, addCount_eq_ok.1 hdropped, rfl⟩
  · rintro ⟨hmessages, hbytes, hdropped, hlatencies⟩
    obtain ⟨messages, bytes, dropped, latencies⟩ := u
    simp only at hmessages hbytes hdropped hlatencies
    simp only [merge, addCount_eq_ok.2 hmessages, addCount_eq_ok.2 hbytes, addCount_eq_ok.2 hdropped, hlatencies]
    rfl

theorem merge_cases (s t : PeerStats) :
    (s.messages.toNat + t.messages.toNat < 2 ^ 64 ∧ s.bytes.toNat + t.bytes.toNat < 2 ^ 64 ∧
        s.dropped.toNat + t.dropped.toNat < 2 ^ 64) ∧ (∃ u, s.merge t = .ok u) ∨
      ¬ (s.messages.toNat + t.messages.toNat < 2 ^ 64 ∧ s.bytes.toNat + t.bytes.toNat < 2 ^ 64 ∧
        s.dropped.toNat + t.dropped.toNat < 2 ^ 64) ∧ s.merge t = .error .countOverflow := by
  rcases addCount_cases s.messages t.messages.toNat with ⟨hmessages, m, hm⟩ | ⟨hmessages, hm⟩
  · rcases addCount_cases s.bytes t.bytes.toNat with ⟨hbytes, b, hb⟩ | ⟨hbytes, hb⟩
    · rcases addCount_cases s.dropped t.dropped.toNat with ⟨hdropped, d, hd⟩ | ⟨hdropped, hd⟩
      · refine .inl ⟨⟨hmessages, hbytes, hdropped⟩, ⟨m, b, d, s.latencies.merge t.latencies⟩, ?_⟩
        simp only [merge, hm, hb, hd]
        rfl
      · exact .inr ⟨fun h => hdropped h.2.2, by simp only [merge, hm, hb, hd]; rfl⟩
    · exact .inr ⟨fun h => hbytes h.2.1, by simp only [merge, hm, hb]; rfl⟩
  · exact .inr ⟨fun h => hmessages h.1, by simp only [merge, hm]; rfl⟩

/-- 64 bits hold the counts of these deliveries and of this number of messages dropped. -/
structure Countable (xs : List (Delay × Nat)) (n : Nat) : Prop where
  messages : xs.length < 2 ^ 64
  bytes : (xs.map Prod.snd).sum < 2 ^ 64
  dropped : n < 2 ^ 64

theorem Describes.countable (h : s.Describes xs n) : Countable xs n where
  messages := h.messages ▸ s.messages.toNat_lt
  bytes := h.bytes ▸ s.bytes.toNat_lt
  dropped := h.dropped ▸ s.dropped.toNat_lt

theorem Countable.of_append (h : Countable (xs ++ ys) (m + n)) : Countable xs m := by
  obtain ⟨hmessages, hbytes, hdropped⟩ := h
  rw [List.length_append] at hmessages
  rw [List.map_append, List.sum_append] at hbytes
  exact ⟨by omega, by omega, by omega⟩

theorem Countable.perm (h : Countable xs n) (hperm : xs.Perm ys) : Countable ys n where
  messages := hperm.length_eq ▸ h.messages
  bytes := (hperm.map Prod.snd).sum_eq ▸ h.bytes
  dropped := h.dropped

theorem Describes.unique (hs : s.Describes xs n) (ht : t.Describes xs n) : s = t :=
  ext_toNat (by rw [hs.messages, ht.messages]) (by rw [hs.bytes, ht.bytes]) (by rw [hs.dropped, ht.dropped])
    (hs.latencies.unique ht.latencies)

theorem Describes.perm (h : s.Describes xs n) (hperm : xs.Perm ys) (hsum : Delay.Summable .zero (xs.map Prod.fst)) :
    s.Describes ys n where
  messages := by rw [h.messages, hperm.length_eq]
  bytes := by rw [h.bytes, (hperm.map Prod.snd).sum_eq]
  dropped := h.dropped
  latencies := h.latencies.perm (hperm.map Prod.fst) hsum

/-- The mean fails only for a sum at the lower end of the range. -/
theorem Describes.exists_mean (h : s.Describes xs n) (hsum : Delay.Summable .zero (xs.map Prod.fst)) :
    ∃ mean, s.meanLatency = .ok mean ∧ (mean = none ↔ xs = []) := by
  have hzero : s.messages = 0 ↔ xs = [] := by
    rw [← List.length_eq_zero_iff, ← h.messages, ← UInt64.toNat_inj]
    rfl
  unfold meanLatency
  by_cases hmessages : s.messages = 0
  · exact ⟨none, if_pos hmessages, by simpa using hzero.1 hmessages⟩
  · have hlt := hsum.natAbs_nanos_sum_lt
    rw [← h.latencies.total] at hlt
    have hle : (s.latencies.total.nanos.tdiv s.messages.toInt64.toInt).natAbs ≤ s.latencies.total.nanos.natAbs := by
      rw [Int.natAbs_tdiv]
      exact Nat.div_le_self _ _
    rw [if_neg hmessages, Delay.ofInt?, dif_pos (by omega)]
    exact ⟨some _, rfl, by simpa using fun hxs => hmessages (hzero.2 hxs)⟩

/-- What comes of taking down these deliveries and drops: statistics that describe them, or an overflow if 64
bits do not hold their counts. -/
def Yields (r : Except Fault PeerStats) (xs : List (Delay × Nat)) (n : Nat) : Prop :=
  Countable xs n ∧ (∃ s, r = .ok s ∧ s.Describes xs n) ∨ ¬ Countable xs n ∧ r = .error .countOverflow

theorem Yields.unique {r r' : Except Fault PeerStats} (h : Yields r xs n) (h' : Yields r' xs n) : r = r' := by
  rcases h with ⟨hcount, s, rfl, hs⟩ | ⟨hcount, rfl⟩
  · rcases h' with ⟨-, t, rfl, ht⟩ | ⟨hcount', -⟩
    · rw [hs.unique ht]
    · exact absurd hcount hcount'
  · rcases h' with ⟨hcount', -⟩ | ⟨-, rfl⟩
    · exact absurd hcount' hcount
    · rfl

theorem Yields.perm {r : Except Fault PeerStats} (h : Yields r xs n) (hperm : xs.Perm ys)
    (hsum : Delay.Summable .zero (xs.map Prod.fst)) : Yields r ys n := by
  rcases h with ⟨hcount, s, hr, hs⟩ | ⟨hcount, hr⟩
  · exact .inl ⟨hcount.perm hperm, s, hr, hs.perm hperm hsum⟩
  · exact .inr ⟨fun h => hcount (h.perm hperm.symm), hr⟩

theorem Describes.yields_recordDelivery (h : s.Describes xs n) (d : Delay) (size : Nat) :
    Yields (s.recordDelivery d size) (xs ++ [(d, size)]) n := by
  rcases s.recordDelivery_cases d size with ⟨-, t, ht⟩ | ⟨hover, herror⟩
  · exact .inl ⟨(h.recordDelivery ht).countable, t, ht, h.recordDelivery ht⟩
  · refine .inr ⟨fun hcount => hover ?_, herror⟩
    obtain ⟨hmessages, hbytes, -⟩ := hcount
    rw [List.length_append, List.length_singleton, ← h.messages] at hmessages
    rw [List.map_append, List.sum_append, List.map_singleton, List.sum_singleton, ← h.bytes] at hbytes
    exact ⟨hmessages, hbytes⟩

theorem Describes.yields_recordDrop (h : s.Describes xs n) : Yields s.recordDrop xs (n + 1) := by
  rcases s.recordDrop_cases with ⟨-, t, ht⟩ | ⟨hover, herror⟩
  · exact .inl ⟨(h.recordDrop ht).countable, t, ht, h.recordDrop ht⟩
  · exact .inr ⟨fun hcount => hover (h.dropped ▸ hcount.dropped), herror⟩

theorem Describes.merge (hs : s.Describes xs m) (ht : t.Describes ys n)
    (hsum : Delay.Summable .zero ((xs ++ ys).map Prod.fst)) (hu : s.merge t = .ok u) : u.Describes (xs ++ ys) (m + n) := by
  obtain ⟨hmessages, hbytes, hdropped, hlatencies⟩ := merge_eq_ok.1 hu
  constructor
  case messages => rw [hmessages, hs.messages, ht.messages, List.length_append]
  case bytes => rw [hbytes, hs.bytes, ht.bytes, List.map_append, List.sum_append]
  case dropped => rw [hdropped, hs.dropped, ht.dropped]
  case latencies =>
    rw [List.map_append] at hsum ⊢
    rw [hlatencies]
    exact hs.latencies.merge ht.latencies hsum

theorem Describes.yields_merge (hs : s.Describes xs m) (ht : t.Describes ys n)
    (hsum : Delay.Summable .zero ((xs ++ ys).map Prod.fst)) : Yields (s.merge t) (xs ++ ys) (m + n) := by
  rcases s.merge_cases t with ⟨-, u, hu⟩ | ⟨hover, herror⟩
  · exact .inl ⟨(hs.merge ht hsum hu).countable, u, hu, hs.merge ht hsum hu⟩
  · refine .inr ⟨fun hcount => hover ?_, herror⟩
    obtain ⟨hmessages, hbytes, hdropped⟩ := hcount
    rw [List.length_append, ← hs.messages, ← ht.messages] at hmessages
    rw [List.map_append, List.sum_append, ← hs.bytes, ← ht.bytes] at hbytes
    rw [← hs.dropped, ← ht.dropped] at hdropped
    exact ⟨hmessages, hbytes, hdropped⟩

/-- What each operation of a list takes down, all of them together take down. -/
theorem Describes.yields_foldlM {α : Type} {f : PeerStats → α → Except Fault PeerStats} {xs : α → List (Delay × Nat)}
    {n : α → Nat} : ∀ {l : List α} {s : PeerStats} {ys : List (Delay × Nat)} {m : Nat}, s.Describes ys m →
      (∀ a ∈ l, ∀ (s : PeerStats) (ys : List (Delay × Nat)) (m : Nat), s.Describes ys m →
        Delay.Summable .zero ((ys ++ xs a).map Prod.fst) → Yields (f s a) (ys ++ xs a) (m + n a)) →
      Delay.Summable .zero ((ys ++ l.flatMap xs).map Prod.fst) →
        Yields (l.foldlM f s) (ys ++ l.flatMap xs) (m + (l.map n).sum)
  | [], s, ys, m, hs, _, _ => by
    rw [List.flatMap_nil, List.append_nil]
    exact .inl ⟨hs.countable, s, rfl, hs⟩
  | a :: l, s, ys, m, hs, hf, hsum => by
    obtain ⟨ha, hl⟩ := List.forall_mem_cons.1 hf
    rw [List.flatMap_cons, ← List.append_assoc] at hsum ⊢
    rw [List.map_cons, List.sum_cons, ← Nat.add_assoc]
    -- what `a` takes down is a part at the front, so its counts and delays are within bounds if those of all are
    have hsum₁ : Delay.Summable .zero ((ys ++ xs a).map Prod.fst) :=
      hsum.sublist ((List.sublist_append_left _ _).map _)
    rcases ha s ys m hs hsum₁ with ⟨-, t, ht, hdescribes⟩ | ⟨hcount, herror⟩
    · rw [List.foldlM_cons, ht]
      exact hdescribes.yields_foldlM hl hsum
    · refine .inr ⟨fun h => hcount h.of_append, ?_⟩
      rw [List.foldlM_cons, herror]
      rfl

end PeerStats

end VirtualMesh

import Mathlib
import VirtualMesh.Stats
import VirtualMesh.Proofs.Time.Sums

/-!
# What statistics say

The statistics of a list of deliveries are its length, the sum of the sizes, and the least, the
greatest and the sum of the delays. Recording one more delivery makes them the statistics of the
longer list.
-/

namespace VirtualMesh

theorem addCount_cases (c : UInt64) (n : Nat) : c.toNat + n < 2 ^ 64 ∧ (∃ d, addCount c n = .ok d) ∨
    ¬ c.toNat + n < 2 ^ 64 ∧ addCount c n = .error .countOverflow := by
  by_cases h : c.toNat + n < 2 ^ 64
  · exact .inl ⟨h, _, if_pos h⟩
  · exact .inr ⟨h, if_neg h⟩

namespace Delay

theorem min_cases (a b : Delay) : min a b = a ∧ a ≤ b ∨ min a b = b ∧ b ≤ a := by
  show (if a ≤ b then a else b) = a ∧ a ≤ b ∨ (if a ≤ b then a else b) = b ∧ b ≤ a
  by_cases h : a ≤ b
  · exact .inl ⟨if_pos h, h⟩
  · refine .inr ⟨if_neg h, ?_⟩
    rw [le_def] at *
    omega

theorem max_cases (a b : Delay) : max a b = b ∧ a ≤ b ∨ max a b = a ∧ b ≤ a := by
  show (if a ≤ b then b else a) = b ∧ a ≤ b ∨ (if a ≤ b then b else a) = a ∧ b ≤ a
  by_cases h : a ≤ b
  · exact .inl ⟨if_pos h, h⟩
  · refine .inr ⟨if_neg h, ?_⟩
    rw [le_def] at *
    omega

theorem ofDuration_clamped (d : Delay) : ofDuration d.clamped = d.maxZero := by
  ext
  have := d.lt
  rw [ofDuration, nanos_ofInt]
  simp only [clamped, maxZero]
  omega

/-- The extreme of some delays with respect to an order, none if there are no delays. -/
structure Extreme (r : Delay → Delay → Prop) (o : Option Delay) (ds : List Delay) : Prop where
  eq_none : o = none ↔ ds = []
  bound : ∀ d, o = some d → d ∈ ds ∧ ∀ x ∈ ds, r d x

namespace Extreme

variable {r : Delay → Delay → Prop} {o o' : Option Delay} {ds es : List Delay}

theorem singleton {d : Delay} (hr : r d d) : Extreme r (some d) [d] where
  eq_none := by simp
  bound a ha := by
    obtain rfl := Option.some.inj ha
    exact ⟨List.mem_singleton_self _, fun x hx => List.mem_singleton.1 hx ▸ hr⟩

theorem exists_of_mem (h : Extreme r o ds) {x : Delay} (hx : x ∈ ds) : ∃ d, o = some d := by
  cases o with
  | none =>
    rw [h.eq_none.1 rfl] at hx
    cases hx
  | some d => exact ⟨d, rfl⟩

theorem unique (hanti : ∀ a b, r a b → r b a → a = b) (h : Extreme r o ds) (h' : Extreme r o' ds) : o = o' := by
  cases ho : o with
  | none => rw [h'.eq_none.2 (h.eq_none.1 ho)]
  | some a =>
    obtain ⟨ha, hle⟩ := h.bound a ho
    obtain ⟨b, hb⟩ := h'.exists_of_mem ha
    obtain ⟨hmem, hle'⟩ := h'.bound b hb
    rw [hb, hanti a b (hle b hmem) (hle' a ha)]

theorem perm (h : Extreme r o ds) (hperm : ds.Perm es) : Extreme r o es where
  eq_none := by rw [h.eq_none, ← List.length_eq_zero_iff, ← List.length_eq_zero_iff, hperm.length_eq]
  bound d hd := by
    obtain ⟨hmem, hle⟩ := h.bound d hd
    exact ⟨hperm.mem_iff.1 hmem, fun x hx => hle x (hperm.mem_iff.2 hx)⟩

/-- The more extreme of two extremes is the extreme of all. -/
theorem append {m : Option Delay} (htrans : ∀ a b c, r a b → r b c → r a c) (h : Extreme r o ds) (h' : Extreme r o' es)
    (hnone : m = none ↔ o = none ∧ o' = none) (hsome : ∀ d, m = some d →
      (o = some d ∨ o' = some d) ∧ (∀ x, o = some x → r d x) ∧ ∀ x, o' = some x → r d x) : Extreme r m (ds ++ es) where
  eq_none := by rw [hnone, h.eq_none, h'.eq_none, List.append_eq_nil_iff]
  bound d hd := by
    obtain ⟨hmem, hleft, hright⟩ := hsome d hd
    refine ⟨?_, fun x hx => ?_⟩
    · rcases hmem with hmem | hmem
      · exact List.mem_append_left _ (h.bound d hmem).1
      · exact List.mem_append_right _ (h'.bound d hmem).1
    · rcases List.mem_append.1 hx with hx | hx
      · obtain ⟨a, ha⟩ := h.exists_of_mem hx
        exact htrans d a x (hleft a ha) ((h.bound a ha).2 x hx)
      · obtain ⟨a, ha⟩ := h'.exists_of_mem hx
        exact htrans d a x (hright a ha) ((h'.bound a ha).2 x hx)

end Extreme

theorem le_trans (a b c : Delay) (hab : a ≤ b) (hbc : b ≤ c) : a ≤ c := Int.le_trans hab hbc

theorem le_antisymm (a b : Delay) (hab : a ≤ b) (hba : b ≤ a) : a = b := ext (Int.le_antisymm hab hba)

end Delay

namespace LatencyStats

/-- What the statistics say of a list of delays. -/
structure Describes (s : LatencyStats) (ds : List Delay) : Prop where
  min_eq_none : s.min = none ↔ ds = []
  max_eq_none : s.max = none ↔ ds = []
  least : ∀ d, s.min = some d → d ∈ ds ∧ ∀ x ∈ ds, d ≤ x
  greatest : ∀ d, s.max = some d → d ∈ ds ∧ ∀ x ∈ ds, x ≤ d
  total : s.total = Delay.sum ds

theorem describes_empty : Describes .empty [] where
  min_eq_none := ⟨fun _ => rfl, fun _ => rfl⟩
  max_eq_none := ⟨fun _ => rfl, fun _ => rfl⟩
  least _ h := nomatch h
  greatest _ h := nomatch h
  total := rfl

theorem least_eq_none {o o' : Option Delay} : LatencyStats.least o o' = none ↔ o = none ∧ o' = none := by
  cases o <;> cases o' <;> simp [LatencyStats.least]

theorem greatest_eq_none {o o' : Option Delay} : LatencyStats.greatest o o' = none ↔ o = none ∧ o' = none := by
  cases o <;> cases o' <;> simp [LatencyStats.greatest]

theorem least_eq_some {o o' : Option Delay} {m : Delay} (h : LatencyStats.least o o' = some m) :
    (o = some m ∨ o' = some m) ∧ (∀ x, o = some x → m ≤ x) ∧ ∀ x, o' = some x → m ≤ x := by
  have hsame : ∀ x, some m = some x → m ≤ x := fun x hx => Option.some.inj hx ▸ Int.le_refl m.nanos
  cases o with
  | none =>
    obtain rfl : o' = some m := h
    exact ⟨.inr rfl, by simp, hsame⟩
  | some a =>
    cases o' with
    | none =>
      obtain rfl : a = m := Option.some.inj h
      exact ⟨.inl rfl, hsame, by simp⟩
    | some b =>
      obtain rfl : Min.min a b = m := Option.some.inj h
      rcases Delay.min_cases a b with ⟨heq, hle⟩ | ⟨heq, hle⟩
      · rw [heq]
        exact ⟨.inl rfl, fun x hx => Option.some.inj hx ▸ Int.le_refl _, fun x hx => Option.some.inj hx ▸ hle⟩
      · rw [heq]
        exact ⟨.inr rfl, fun x hx => Option.some.inj hx ▸ hle, fun x hx => Option.some.inj hx ▸ Int.le_refl _⟩

theorem greatest_eq_some {o o' : Option Delay} {m : Delay} (h : LatencyStats.greatest o o' = some m) :
    (o = some m ∨ o' = some m) ∧ (∀ x, o = some x → x ≤ m) ∧ ∀ x, o' = some x → x ≤ m := by
  have hsame : ∀ x, some m = some x → x ≤ m := fun x hx => Option.some.inj hx ▸ Int.le_refl m.nanos
  cases o with
  | none =>
    obtain rfl : o' = some m := h
    exact ⟨.inr rfl, by simp, hsame⟩
  | some a =>
    cases o' with
    | none =>
      obtain rfl : a = m := Option.some.inj h
      exact ⟨.inl rfl, hsame, by simp⟩
    | some b =>
      obtain rfl : Max.max a b = m := Option.some.inj h
      rcases Delay.max_cases a b with ⟨heq, hle⟩ | ⟨heq, hle⟩
      · rw [heq]
        exact ⟨.inr rfl, fun x hx => Option.some.inj hx ▸ hle, fun x hx => Option.some.inj hx ▸ Int.le_refl _⟩
      · rw [heq]
        exact ⟨.inl rfl, fun x hx => Option.some.inj hx ▸ Int.le_refl _, fun x hx => Option.some.inj hx ▸ hle⟩

namespace Describes

variable {s t : LatencyStats} {ds : List Delay}

theorem isLeast (h : s.Describes ds) : Delay.Extreme (fun d x => d ≤ x) s.min ds := ⟨h.min_eq_none, h.least⟩

theorem isGreatest (h : s.Describes ds) : Delay.Extreme (fun d x => x ≤ d) s.max ds := ⟨h.max_eq_none, h.greatest⟩

theorem of_extremes (hmin : Delay.Extreme (fun d x => d ≤ x) s.min ds) (hmax : Delay.Extreme (fun d x => x ≤ d) s.max ds)
    (htotal : s.total = Delay.sum ds) : s.Describes ds :=
  ⟨hmin.eq_none, hmax.eq_none, hmin.bound, hmax.bound, htotal⟩

theorem record (h : s.Describes ds) (d : Delay) : (s.record d).Describes (ds ++ [d]) := by
  refine of_extremes ?_ ?_ ?_
  · exact h.isLeast.append Delay.le_trans (.singleton (Int.le_refl _)) least_eq_none fun _ => least_eq_some
  · exact h.isGreatest.append (fun a b c hab hbc => Delay.le_trans c b a hbc hab) (.singleton (Int.le_refl _))
      greatest_eq_none fun _ => greatest_eq_some
  · rw [Delay.sum_append, ← h.total]
    rfl

theorem unique (hs : s.Describes ds) (ht : t.Describes ds) : s = t := by
  have hmin := hs.isLeast.unique Delay.le_antisymm ht.isLeast
  have hmax := hs.isGreatest.unique (fun a b hba hab => Delay.le_antisymm a b hab hba) ht.isGreatest
  have htotal : s.total = t.total := by rw [hs.total, ht.total]
  cases s
  cases t
  simp only at hmin hmax htotal
  rw [hmin, hmax, htotal]

end Describes

end LatencyStats

namespace PeerStats

theorem ext_toNat {s t : PeerStats} (hmessages : s.messages.toNat = t.messages.toNat)
    (hbytes : s.bytes.toNat = t.bytes.toNat) (hdropped : s.dropped.toNat = t.dropped.toNat)
    (hlatencies : s.latencies = t.latencies) : s = t := by
  cases s
  cases t
  rw [PeerStats.mk.injEq]
  exact ⟨UInt64.toNat.inj hmessages, UInt64.toNat.inj hbytes, UInt64.toNat.inj hdropped, hlatencies⟩

/-- What the statistics of a peer say of its deliveries, each given by its delay and size, and of
the number of messages dropped. -/
structure Describes (s : PeerStats) (deliveries : List (Delay × Nat)) (drops : Nat) : Prop where
  messages : s.messages.toNat = deliveries.length
  bytes : s.bytes.toNat = (deliveries.map Prod.snd).sum
  dropped : s.dropped.toNat = drops
  latencies : s.latencies.Describes (deliveries.map Prod.fst)

theorem describes_empty : Describes .empty [] 0 :=
  ⟨rfl, rfl, rfl, LatencyStats.describes_empty⟩

theorem recordDelivery_eq_ok {s t : PeerStats} {d : Delay} {size : Nat} :
    s.recordDelivery d size = .ok t ↔ t.messages.toNat = s.messages.toNat + 1 ∧
      t.bytes.toNat = s.bytes.toNat + size ∧ t.dropped = s.dropped ∧
      t.latencies = s.latencies.record d := by
  constructor
  · intro h
    simp only [recordDelivery, bind, Except.bind] at h
    split at h
    · cases h
    · rename_i messages hmessages
      split at h
      · cases h
      · rename_i bytes hbytes
        cases h
        exact ⟨addCount_eq_ok.1 hmessages, addCount_eq_ok.1 hbytes, rfl, rfl⟩
  · rintro ⟨hmessages, hbytes, hdropped, hlatencies⟩
    obtain ⟨messages, bytes, dropped, latencies⟩ := t
    simp only at hmessages hbytes hdropped hlatencies
    simp only [recordDelivery, addCount_eq_ok.2 hmessages, addCount_eq_ok.2 hbytes, hdropped, hlatencies]
    rfl

theorem recordDrop_eq_ok {s t : PeerStats} :
    s.recordDrop = .ok t ↔ t.dropped.toNat = s.dropped.toNat + 1 ∧ t.messages = s.messages ∧
      t.bytes = s.bytes ∧ t.latencies = s.latencies := by
  constructor
  · intro h
    simp only [recordDrop, bind, Except.bind] at h
    split at h
    · cases h
    · rename_i dropped hdropped
      cases h
      exact ⟨addCount_eq_ok.1 hdropped, rfl, rfl, rfl⟩
  · rintro ⟨hdropped, hmessages, hbytes, hlatencies⟩
    obtain ⟨messages, bytes, dropped, latencies⟩ := t
    simp only at hmessages hbytes hdropped hlatencies
    simp only [recordDrop, addCount_eq_ok.2 hdropped, hmessages, hbytes, hlatencies]
    rfl

theorem Describes.recordDelivery {s t : PeerStats} {deliveries : List (Delay × Nat)} {drops : Nat}
    (h : s.Describes deliveries drops) {d : Delay} {size : Nat} (ht : s.recordDelivery d size = .ok t) :
    t.Describes (deliveries ++ [(d, size)]) drops := by
  obtain ⟨hmessages, hbytes, hdropped, hlatencies⟩ := recordDelivery_eq_ok.1 ht
  constructor
  case messages => rw [hmessages, h.messages, List.length_append, List.length_singleton]
  case bytes => rw [hbytes, h.bytes, List.map_append, List.sum_append]; rfl
  case dropped => rw [hdropped, h.dropped]
  case latencies =>
    rw [hlatencies, List.map_append]
    exact h.latencies.record d

theorem Describes.recordDrop {s t : PeerStats} {deliveries : List (Delay × Nat)} {drops : Nat}
    (h : s.Describes deliveries drops) (ht : s.recordDrop = .ok t) :
    t.Describes deliveries (drops + 1) := by
  obtain ⟨hdropped, hmessages, hbytes, hlatencies⟩ := recordDrop_eq_ok.1 ht
  constructor
  case messages => rw [hmessages, h.messages]
  case bytes => rw [hbytes, h.bytes]
  case dropped => rw [hdropped, h.dropped]
  case latencies => rw [hlatencies]; exact h.latencies

theorem recordDelivery_cases (s : PeerStats) (d : Delay) (size : Nat) :
    (s.messages.toNat + 1 < 2 ^ 64 ∧ s.bytes.toNat + size < 2 ^ 64) ∧ (∃ t, s.recordDelivery d size = .ok t) ∨
      ¬ (s.messages.toNat + 1 < 2 ^ 64 ∧ s.bytes.toNat + size < 2 ^ 64) ∧
        s.recordDelivery d size = .error .countOverflow := by
  rcases addCount_cases s.messages 1 with ⟨hmessages, m, hm⟩ | ⟨hmessages, hm⟩
  · rcases addCount_cases s.bytes size with ⟨hbytes, b, hb⟩ | ⟨hbytes, hb⟩
    · refine .inl ⟨⟨hmessages, hbytes⟩, ⟨m, b, s.dropped, s.latencies.record d⟩, ?_⟩
      simp only [recordDelivery, hm, hb]
      rfl
    · exact .inr ⟨fun h => hbytes h.2, by simp only [recordDelivery, hm, hb]; rfl⟩
  · exact .inr ⟨fun h => hmessages h.1, by simp only [recordDelivery, hm]; rfl⟩

theorem recordDrop_cases (s : PeerStats) :
    s.dropped.toNat + 1 < 2 ^ 64 ∧ (∃ t, s.recordDrop = .ok t) ∨
      ¬ s.dropped.toNat + 1 < 2 ^ 64 ∧ s.recordDrop = .error .countOverflow := by
  rcases addCount_cases s.dropped 1 with ⟨hdropped, n, hn⟩ | ⟨hdropped, hn⟩
  · exact .inl ⟨hdropped, { s with dropped := n }, by simp only [recordDrop, hn]; rfl⟩
  · exact .inr ⟨hdropped, by simp only [recordDrop, hn]; rfl⟩

/-- Statistics that describe the same deliveries differ in the number of messages dropped at most. -/
theorem Describes.eq_with_dropped {s t : PeerStats} {deliveries : List (Delay × Nat)} {m n : Nat}
    (hs : s.Describes deliveries m) (ht : t.Describes deliveries n) : t = { s with dropped := t.dropped } :=
  ext_toNat (by rw [hs.messages, ht.messages]) (by rw [hs.bytes, ht.bytes]) rfl (ht.latencies.unique hs.latencies)

/-- No count of `s` is above that of `t`. -/
structure CountsLE (s t : PeerStats) : Prop where
  messages : s.messages ≤ t.messages
  bytes : s.bytes ≤ t.bytes
  dropped : s.dropped ≤ t.dropped

namespace CountsLE

theorem refl (s : PeerStats) : s.CountsLE s :=
  ⟨UInt64.le_refl _, UInt64.le_refl _, UInt64.le_refl _⟩

theorem trans {s t u : PeerStats} (hst : s.CountsLE t) (htu : t.CountsLE u) : s.CountsLE u :=
  ⟨UInt64.le_trans hst.messages htu.messages, UInt64.le_trans hst.bytes htu.bytes,
    UInt64.le_trans hst.dropped htu.dropped⟩

theorem recordDelivery {s t : PeerStats} {d : Delay} {size : Nat}
    (h : s.recordDelivery d size = .ok t) : s.CountsLE t := by
  obtain ⟨hmessages, hbytes, hdropped, -⟩ := recordDelivery_eq_ok.1 h
  refine ⟨?_, ?_, ?_⟩
  · rw [UInt64.le_iff_toNat_le]; omega
  · rw [UInt64.le_iff_toNat_le]; omega
  · rw [hdropped]; exact UInt64.le_refl _

theorem recordDrop {s t : PeerStats} (h : s.recordDrop = .ok t) : s.CountsLE t := by
  obtain ⟨hdropped, hmessages, hbytes, -⟩ := recordDrop_eq_ok.1 h
  refine ⟨?_, ?_, ?_⟩
  · rw [hmessages]; exact UInt64.le_refl _
  · rw [hbytes]; exact UInt64.le_refl _
  · rw [UInt64.le_iff_toNat_le]; omega

end CountsLE

end PeerStats

end VirtualMesh

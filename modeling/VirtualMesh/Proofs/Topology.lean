import Mathlib
import VirtualMesh.Mesh

/-!
# The topology of a mesh

The peers of a mesh on `n` engines are numbered row by row, and each row leaves out the place that
it belongs to. So the peer with number `first + place * (n - 1) + k` leads from `place` to the
`k`-th of the other places.
-/

namespace VirtualMesh

theorem getElem?_flatMap_const {α β : Type} {f : α → List β} {n : Nat} :
    ∀ {l : List α}, (∀ a ∈ l, (f a).length = n) → ∀ {i k : Nat} {a : α}, l[i]? = some a → k < n →
      (l.flatMap f)[i * n + k]? = (f a)[k]?
  | [], _, _, _, _, h, _ => by simp at h
  | b :: l, hl, 0, k, a, h, hk => by
    obtain rfl : b = a := by simpa using h
    rw [List.flatMap_cons, Nat.zero_mul, Nat.zero_add,
      List.getElem?_append_left (by rw [hl b List.mem_cons_self]; exact hk)]
  | b :: l, hl, i + 1, k, a, h, hk => by
    obtain ⟨hb, hl⟩ := List.forall_mem_cons.1 hl
    have hle : (f b).length ≤ (i + 1) * n + k := by rw [hb, Nat.succ_mul]; omega
    rw [List.flatMap_cons, List.getElem?_append_right hle, hb,
      show (i + 1) * n + k - n = i * n + k by rw [Nat.succ_mul]; omega]
    exact getElem?_flatMap_const hl (by simpa using h) hk

theorem length_flatMap_const {α β : Type} {f : α → List β} {n : Nat} {l : List α}
    (hl : ∀ a ∈ l, (f a).length = n) : (l.flatMap f).length = l.length * n := by
  induction l with
  | nil => simp
  | cons a l ih =>
    obtain ⟨ha, hl⟩ := List.forall_mem_cons.1 hl
    rw [List.flatMap_cons, List.length_append, ha, ih hl, List.length_cons, Nat.succ_mul, Nat.add_comm]

namespace Mesh

theorem mem_others {α : Type} {l : List α} {place : Nat} {x : α × Nat} :
    x ∈ others l place ↔ l[x.2]? = some x.1 ∧ x.2 ≠ place := by
  simp [others, List.mem_filter, List.mem_zipIdx_iff_getElem?]

theorem length_filter_zipIdx {α : Type} : ∀ (l : List α) (k place : Nat), place < l.length →
    ((l.zipIdx k).filter fun x => decide (x.2 ≠ k + place)).length = l.length - 1
  | [], _, _, h => absurd h (Nat.not_lt_zero _)
  | a :: l, k, 0, _ => by
    have hall : (l.zipIdx (k + 1)).filter (fun x => decide (x.2 ≠ k + 0)) = l.zipIdx (k + 1) := by
      refine List.filter_eq_self.2 ?_
      intro x hx
      have hle := List.le_snd_of_mem_zipIdx hx
      simp only [ne_eq, decide_not, Bool.not_eq_eq_eq_not, Bool.not_true, decide_eq_false_iff_not]
      omega
    rw [List.zipIdx_cons, List.filter_cons_of_neg (by simp), hall]
    simp
  | a :: l, k, place + 1, h => by
    have hlt : place < l.length := Nat.lt_of_succ_lt_succ h
    have ih := length_filter_zipIdx l (k + 1) place hlt
    rw [show k + 1 + place = k + (place + 1) by omega] at ih
    rw [List.zipIdx_cons, List.filter_cons_of_pos (by simp), List.length_cons, ih, List.length_cons]
    omega

theorem length_others {α : Type} {l : List α} {place : Nat} (h : place < l.length) :
    (others l place).length = l.length - 1 := by
  have := length_filter_zipIdx l 0 place h
  rwa [Nat.zero_add] at this

/-- The other places, row by row, each as often as there are rows that it is in. -/
def targets {α : Type} (engines : List α) : List (α × Nat) :=
  (List.range engines.length).flatMap (others engines)

theorem length_targets {α : Type} (engines : List α) :
    (targets engines).length = engines.length * (engines.length - 1) := by
  have := length_flatMap_const (l := List.range engines.length) (f := others engines)
    fun place hp => length_others (List.mem_range.1 hp)
  rwa [List.length_range] at this

theorem rows_number {α : Type} (engines : List α) (first : Nat) {place : Nat} {row : List (Nat × Nat)}
    (h : (number engines first).rows[place]? = some row) : place < engines.length ∧
      row = ((others engines place).map Prod.snd).zipIdx (first + place * (engines.length - 1)) := by
  simp only [number, List.getElem?_map, Option.map_eq_some_iff] at h
  obtain ⟨i, hi, rfl⟩ := h
  obtain ⟨hlt, rfl⟩ := List.getElem?_eq_some_iff.1 hi
  rw [List.length_range] at hlt
  rw [List.getElem_range]
  exact ⟨hlt, rfl⟩

/-- The peer that a row names for a target is the one made for it. -/
theorem targets_of_row {α : Type} {engines : List α} {first place : Nat} {row : List (Nat × Nat)}
    (h : (number engines first).rows[place]? = some row) {x : Nat × Nat} (hx : x ∈ row) :
    ∃ a n, x.2 = first + n ∧ (targets engines)[n]? = some (a, x.1) ∧ engines[x.1]? = some a ∧
      x.1 ≠ place := by
  obtain ⟨hplace, rfl⟩ := rows_number engines first h
  obtain ⟨hle, hget⟩ := List.mem_zipIdx_iff_le_and_getElem?_sub.1 hx
  simp only [List.getElem?_map, Option.map_eq_some_iff] at hget
  obtain ⟨⟨a, target⟩, hk, htarget⟩ := hget
  obtain rfl : target = x.1 := htarget
  have hmem := mem_others.1 (List.mem_of_getElem? hk)
  refine ⟨a, x.2 - first, by omega, ?_, hmem.1, hmem.2⟩
  have hlt := (List.getElem?_eq_some_iff.1 hk).1
  rw [length_others hplace] at hlt
  have hrow := getElem?_flatMap_const (l := List.range engines.length) (f := others engines)
    (fun p hp => length_others (List.mem_range.1 hp)) (List.getElem?_range hplace) hlt
  rw [hk, show place * (engines.length - 1) + (x.2 - (first + place * (engines.length - 1))) =
    x.2 - first by omega] at hrow
  exact hrow

/-- Every place but its own is in a row. -/
theorem exists_target_of_row {α : Type} {engines : List α} (first : Nat) {place target : Nat} {a : α}
    (hplace : place < engines.length) (ha : engines[target]? = some a) (hne : target ≠ place) :
    ∃ row n, (number engines first).rows[place]? = some row ∧ (target, first + n) ∈ row ∧
      (targets engines)[n]? = some (a, target) := by
  have hother : target ∈ (others engines place).map Prod.snd :=
    List.mem_map.2 ⟨(a, target), mem_others.2 ⟨ha, hne⟩, rfl⟩
  have hrow : (number engines first).rows[place]? = some (((others engines place).map Prod.snd).zipIdx
      (first + place * (engines.length - 1))) := by
    simp [number, hplace]
  rw [← List.zipIdx_map_fst (first + place * (engines.length - 1)) ((others engines place).map Prod.snd)]
    at hother
  obtain ⟨⟨_, p⟩, hp, rfl⟩ := List.mem_map.1 hother
  obtain ⟨b, n, rfl, htarget, hb, -⟩ := targets_of_row hrow hp
  obtain rfl := Option.some.inj (hb.symm.trans ha)
  exact ⟨_, n, hrow, hp, htarget⟩

theorem mem_peers {m : Mesh} {p : Nat} :
    p ∈ m.peers ↔ ∃ (place : Nat) (row : List (Nat × Nat)), m.rows[place]? = some row ∧ p ∈ row.map Prod.snd := by
  constructor
  · intro h
    obtain ⟨x, hx, rfl⟩ := List.mem_map.1 h
    obtain ⟨row, hrow, hx⟩ := List.mem_flatten.1 hx
    obtain ⟨place, hplace⟩ := List.getElem?_of_mem hrow
    exact ⟨place, row, hplace, List.mem_map_of_mem hx⟩
  · rintro ⟨place, row, hplace, hp⟩
    obtain ⟨x, hx, rfl⟩ := List.mem_map.1 hp
    exact List.mem_map_of_mem (List.mem_flatten_of_mem (List.mem_of_getElem? hplace) hx)

theorem mem_peers_of_peersOf {m : Mesh} {place : Nat} {row : List (Nat × Nat)}
    (h : m.peersOf place = .ok row) {x : Nat × Nat} (hx : x ∈ row) : x.2 ∈ m.peers := by
  unfold peersOf at h
  split at h
  · rename_i row' hrow
    cases h
    exact mem_peers.2 ⟨place, row, hrow, List.mem_map_of_mem hx⟩
  · cases h

theorem mem_peers_of_peer {m : Mesh} {place target p : Nat} (h : m.peer place target = .ok p) :
    p ∈ m.peers := by
  unfold peer at h
  split at h
  · cases h
  · rename_i row hrow
    split at h
    · rename_i t q hfind
      cases h
      exact mem_peers_of_peersOf hrow (List.mem_of_find?_eq_some hfind)
    · cases h

theorem le_of_mem_number {α : Type} {engines : List α} {first p : Nat}
    (h : p ∈ (number engines first).peers) : first ≤ p := by
  obtain ⟨place, row, hrow, hp⟩ := mem_peers.1 h
  obtain ⟨x, hx, rfl⟩ := List.mem_map.1 hp
  obtain ⟨a, n, hn, -⟩ := targets_of_row hrow hx
  omega

theorem lt_of_mem_number {α : Type} {engines : List α} {first p : Nat}
    (h : p ∈ (number engines first).peers) : p < first + (targets engines).length := by
  obtain ⟨place, row, hrow, hp⟩ := mem_peers.1 h
  obtain ⟨x, hx, rfl⟩ := List.mem_map.1 hp
  obtain ⟨a, n, hn, hget, -, -⟩ := targets_of_row hrow hx
  have := (List.getElem?_eq_some_iff.1 hget).1
  omega

theorem map_snd_others {α : Type} (l : List α) (place : Nat) :
    (others l place).map Prod.snd = (List.range l.length).filter fun k => k ≠ place := by
  have hsnd : l.zipIdx.map Prod.snd = List.range l.length := by
    rw [List.zipIdx_map_snd, List.range_eq_range']
  rw [← hsnd, List.filter_map]
  rfl

theorem flatMap_range' (first k : Nat) : ∀ n,
    (List.range n).flatMap (fun i => List.range' (first + i * k) k) = List.range' first (n * k)
  | 0 => by simp
  | n + 1 => by
    rw [List.range_succ, List.flatMap_append, flatMap_range' first k n, List.flatMap_singleton,
      List.range'_append_1, Nat.succ_mul]

/-- The peers of a mesh are numbered without gaps. -/
theorem peers_number {α : Type} (engines : List α) (first : Nat) :
    (number engines first).peers = List.range' first (engines.length * (engines.length - 1)) := by
  rw [← flatMap_range', peers, number, List.map_flatten, List.map_map, List.flatMap_def]
  congr 1
  refine List.map_congr_left fun place hplace => ?_
  have hlength := length_others (List.mem_range.1 hplace)
  rw [Function.comp_apply, List.zipIdx_map_snd, List.length_map, hlength]

theorem nodup_peers_number {α : Type} (engines : List α) (first : Nat) : (number engines first).peers.Nodup := by
  rw [peers_number]
  exact List.nodup_range'

theorem sum_add_countP {α : Type} {c : α → Nat} {g : α → Bool} {n : Nat} : ∀ {l : List α},
    (∀ a ∈ l, c a + (if g a then 1 else 0) = n) → (l.map c).sum + l.countP g = l.length * n
  | [], _ => by simp
  | a :: l, h => by
    obtain ⟨ha, hl⟩ := List.forall_mem_cons.1 h
    have ih := sum_add_countP hl
    rw [List.map_cons, List.sum_cons, List.countP_cons, List.length_cons, Nat.succ_mul]
    omega

theorem countP_map_snd_others {α : Type} {l : List α} {place : Nat} (hplace : place < l.length) (g : Nat → Bool) :
    ((others l place).map Prod.snd).countP g + (if g place then 1 else 0) = (List.range l.length).countP g := by
  have hone : (List.range l.length).filter (fun k => !decide (k ≠ place)) = [place] := by
    have hcount := List.count_eq_one_of_mem List.nodup_range (List.mem_range.2 hplace)
    rw [show (fun k => !decide (k ≠ place)) = (· == place) by funext k; simp [beq_eq_decide],
      List.filter_beq, hcount]
    rfl
  rw [List.countP_eq_countP_filter_add (List.range l.length) g fun k => k ≠ place, hone, map_snd_others,
    List.countP_singleton]

theorem countP_range_getElem? {α : Type} [DecidableEq α] (l : List α) (a : α) :
    (List.range l.length).countP (fun k => l[k]? = some a) = l.count a := by
  have hmap : (List.range l.length).map (fun k => l[k]?) = l.map some := by
    refine List.ext_getElem (by simp) fun k h h' => ?_
    rw [List.length_map] at h'
    simp [h']
  calc (List.range l.length).countP (fun k => l[k]? = some a)
      = ((List.range l.length).map fun k => l[k]?).countP (· = some a) := by rw [List.countP_map]; rfl
    _ = l.count a := by
        rw [hmap, List.countP_map, List.count]
        exact List.countP_congr fun x _ => by simp

/-- If `f` tells the peers by the places that they lead to, each place that counts is led to from all
others. -/
theorem countP_peers_number {α : Type} {engines : List α} {first : Nat} {f g : Nat → Bool}
    (h : ∀ row ∈ (number engines first).rows, ∀ x ∈ row, f x.2 = g x.1) :
    (number engines first).peers.countP f = (List.range engines.length).countP g * (engines.length - 1) := by
  let row (place : Nat) := ((others engines place).map Prod.snd).zipIdx (first + place * (engines.length - 1))
  have hrow : ∀ place ∈ List.range engines.length, (row place).countP (fun x => f x.2) +
      (if g place then 1 else 0) = (List.range engines.length).countP g := by
    intro place hplace
    have hsame : (row place).countP (fun x => f x.2) = (row place).countP (fun x => g x.1) :=
      List.countP_congr fun x hx => by rw [h _ (List.mem_map_of_mem hplace) x hx]
    have hfst : (row place).map Prod.fst = (others engines place).map Prod.snd := List.zipIdx_map_fst ..
    rw [hsame, ← countP_map_snd_others (List.mem_range.1 hplace), ← hfst, List.countP_map]
    rfl
  have hpeers : (number engines first).peers.countP f =
      ((List.range engines.length).map fun place => (row place).countP fun x => f x.2).sum := by
    rw [peers, List.countP_map, List.countP_flatten, number, List.map_map]
    rfl
  have hsum := sum_add_countP hrow
  rw [List.length_range] at hsum
  rw [hpeers, Nat.mul_sub, Nat.mul_one, Nat.mul_comm]
  omega

end Mesh

end VirtualMesh

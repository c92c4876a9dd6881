import Mathlib
import VirtualMesh.Time.Delay

/-!
# Sums of delays

A running total that stops at an end of the range goes on from there, so a sum depends on the order of its delays. It
is the exact sum, stopped once, as long as nothing leads the total back from beyond an end: if no partial sum leaves
the range, or if no two delays lie on different sides of zero. Delays on one side of zero may also be put in any order
and summed in parts. Whatever the delays are, a sum never gets smaller if one of them gets larger.
-/

namespace VirtualMesh.Delay

variable {ds es : List Delay} {a b d e : Delay} {i : Int}

theorem le_def {a b : Delay} : a ≤ b ↔ a.nanos ≤ b.nanos := .rfl

theorem sum_append (ds : List Delay) (d : Delay) : sum (ds ++ [d]) = sum ds + d := by
  simp [sum]

theorem ofInt_nanos (d : Delay) : ofInt d.nanos = d := by
  have hge := d.ge
  have hlt := d.lt
  ext
  rw [nanos_ofInt]
  omega

theorem zero_add (d : Delay) : zero + d = d := by
  show ofInt (0 + d.nanos) = d
  rw [Int.zero_add, ofInt_nanos]

theorem accrued_eq_foldl (ds : List Delay) (start : Delay) : accrued start ds = ds.foldl (· + ·) start := by
  induction ds generalizing start with
  | nil => rfl
  | cons d ds ih => exact ih (start + d)

/-! ## Totals that are never turned back -/

theorem ofInt_add (hlow : -2 ^ 63 ≤ i ∨ d.nanos ≤ 0) (hhigh : i < 2 ^ 63 ∨ 0 ≤ d.nanos) :
    ofInt i + d = ofInt (i + d.nanos) := by
  ext
  rw [nanos_add, nanos_ofInt, nanos_ofInt]
  omega

/-- From the exact total `i` on, no delay leads back from beyond an end of the range. -/
def NeverTurns : Int → List Delay → Prop
  | _, [] => True
  | i, d :: ds => (-2 ^ 63 ≤ i ∨ d.nanos ≤ 0) ∧ (i < 2 ^ 63 ∨ 0 ≤ d.nanos) ∧ NeverTurns (i + d.nanos) ds

namespace NeverTurns

theorem of_nonneg (hi : -2 ^ 63 ≤ i) (h : ∀ d ∈ ds, 0 ≤ d.nanos) : NeverTurns i ds := by
  induction ds generalizing i with
  | nil => trivial
  | cons d ds ih =>
    obtain ⟨hd, hds⟩ := List.forall_mem_cons.1 h
    exact ⟨.inl hi, .inr hd, ih (by omega) hds⟩

theorem of_nonpos (hi : i < 2 ^ 63) (h : ∀ d ∈ ds, d.nanos ≤ 0) : NeverTurns i ds := by
  induction ds generalizing i with
  | nil => trivial
  | cons d ds ih =>
    obtain ⟨hd, hds⟩ := List.forall_mem_cons.1 h
    exact ⟨.inr hd, .inl hi, ih (by omega) hds⟩

theorem of_inits
    (h : ∀ es ∈ ds.inits, -2 ^ 63 ≤ i + (es.map nanos).sum ∧ i + (es.map nanos).sum < 2 ^ 63) : NeverTurns i ds := by
  induction ds generalizing i with
  | nil => trivial
  | cons d ds ih =>
    rw [List.inits_cons, List.forall_mem_cons] at h
    obtain ⟨⟨hlow, hhigh⟩, hrest⟩ := h
    rw [List.map_nil, List.sum_nil, Int.add_zero] at hlow hhigh
    refine ⟨.inl hlow, .inl hhigh, ih fun es hes => ?_⟩
    have hes := hrest _ (List.mem_map_of_mem hes)
    rwa [List.map_cons, List.sum_cons, ← Int.add_assoc] at hes

/-- Stopping at every step is then stopping once. -/
theorem foldl_add (h : NeverTurns i ds) : ds.foldl (· + ·) (ofInt i) = ofInt (i + (ds.map nanos).sum) := by
  induction ds generalizing i with
  | nil => rw [List.foldl_nil, List.map_nil, List.sum_nil, Int.add_zero]
  | cons d ds ih =>
    obtain ⟨hlow, hhigh, hds⟩ := h
    rw [List.foldl_cons, ofInt_add hlow hhigh, ih hds, List.map_cons, List.sum_cons, Int.add_assoc]

end NeverTurns

theorem sum_map_nanos_nonneg (h : ∀ d ∈ ds, 0 ≤ d.nanos) : 0 ≤ (ds.map nanos).sum :=
  List.sum_nonneg (List.forall_mem_map.2 h)

theorem sum_map_nanos_nonpos (h : ∀ d ∈ ds, d.nanos ≤ 0) : (ds.map nanos).sum ≤ 0 := by
  simpa using List.sum_le_card_nsmul (ds.map nanos) 0 (List.forall_mem_map.2 h)

/-- While no partial total leaves the range, the total stops nowhere. -/
theorem nanos_foldl_add_of_inits
    (h : ∀ es ∈ ds.inits, -2 ^ 63 ≤ a.nanos + (es.map nanos).sum ∧ a.nanos + (es.map nanos).sum < 2 ^ 63) :
    (ds.foldl (· + ·) a).nanos = a.nanos + (ds.map nanos).sum := by
  have hall := h ds ((List.mem_inits ds ds).2 (List.prefix_refl ds))
  have hfold := (NeverTurns.of_inits h).foldl_add
  rw [ofInt_nanos] at hfold
  rw [hfold, nanos_ofInt]
  omega

/-- Without delays below zero the sum only ever stops at the upper end. -/
theorem nanos_foldl_add (h : ∀ d ∈ ds, 0 ≤ d.nanos) (a : Delay) :
    (ds.foldl (· + ·) a).nanos = min (a.nanos + (ds.map nanos).sum) (2 ^ 63 - 1) := by
  have hsum := sum_map_nanos_nonneg h
  have hge := a.ge
  have hfold := (NeverTurns.of_nonneg hge h).foldl_add
  rw [ofInt_nanos] at hfold
  rw [hfold, nanos_ofInt]
  omega

theorem nanos_sum (h : ∀ d ∈ ds, 0 ≤ d.nanos) : (sum ds).nanos = min (ds.map nanos).sum (2 ^ 63 - 1) := by
  rw [sum, nanos_foldl_add h]
  simp [zero]

/-! ## Delays on one side of zero -/

/-- No two of the delays lie on different sides of zero. -/
def SameSign (ds : List Delay) : Prop := (∀ d ∈ ds, 0 ≤ d.nanos) ∨ ∀ d ∈ ds, d.nanos ≤ 0

instance : DecidablePred SameSign := fun _ => inferInstanceAs (Decidable (_ ∨ _))

namespace SameSign

theorem subset (h : SameSign es) (hsub : ds ⊆ es) : SameSign ds :=
  h.imp (fun h d hd => h d (hsub hd)) fun h d hd => h d (hsub hd)

theorem foldl_add (h : SameSign ds) (a : Delay) :
    ds.foldl (· + ·) a = ofInt (a.nanos + (ds.map nanos).sum) := by
  have hturns : NeverTurns a.nanos ds := h.elim (.of_nonneg a.ge) (.of_nonpos a.lt)
  rw [← hturns.foldl_add, ofInt_nanos]

theorem sum_eq (h : SameSign ds) : sum ds = ofInt (ds.map nanos).sum := by
  rw [sum, h.foldl_add, zero, Int.zero_add]

theorem nanos_sum (h : SameSign ds) :
    (sum ds).nanos = max (-2 ^ 63) (min (ds.map nanos).sum (2 ^ 63 - 1)) := by
  rw [h.sum_eq, nanos_ofInt]

theorem sum_perm (h : SameSign ds) (hperm : es.Perm ds) : sum es = sum ds := by
  rw [(h.subset hperm.subset).sum_eq, h.sum_eq, (hperm.map nanos).sum_eq]

/-- What all delays are added to may lie on their side of zero, and then so does the total. -/
theorem total (h : SameSign (a :: (ds ++ es))) : SameSign (ds.foldl (· + ·) a :: es) := by
  have hds : SameSign ds := h.subset (List.subset_cons_of_subset a (List.subset_append_left ds es))
  rcases h with h | h
  · obtain ⟨ha, hrest⟩ := List.forall_mem_cons.1 h
    obtain ⟨hleft, hright⟩ := List.forall_mem_append.1 hrest
    refine .inl (List.forall_mem_cons.2 ⟨?_, hright⟩)
    have hsum := sum_map_nanos_nonneg hleft
    rw [hds.foldl_add, nanos_ofInt]
    omega
  · obtain ⟨ha, hrest⟩ := List.forall_mem_cons.1 h
    obtain ⟨hleft, hright⟩ := List.forall_mem_append.1 hrest
    refine .inr (List.forall_mem_cons.2 ⟨?_, hright⟩)
    have hsum := sum_map_nanos_nonpos hleft
    rw [hds.foldl_add, nanos_ofInt]
    omega

theorem add_sum (h : SameSign (a :: ds)) : a + sum ds = ds.foldl (· + ·) a := by
  -- where the sum stops on its own, the total stops at the same end
  have hds : SameSign ds := h.subset (List.subset_cons_self a ds)
  ext
  rw [hds.foldl_add, nanos_add, hds.sum_eq, nanos_ofInt, nanos_ofInt]
  rcases h with h | h
  · obtain ⟨ha, hds⟩ := List.forall_mem_cons.1 h
    have hsum := sum_map_nanos_nonneg hds
    omega
  · obtain ⟨ha, hds⟩ := List.forall_mem_cons.1 h
    have hsum := sum_map_nanos_nonpos hds
    omega

/-- Parts may be summed first. -/
theorem foldl_sums {parts : List (List Delay)} (h : SameSign (a :: parts.flatten)) :
    (parts.map sum).foldl (· + ·) a = parts.flatten.foldl (· + ·) a := by
  induction parts generalizing a with
  | nil => rfl
  | cons p parts ih =>
    -- the total so far lies on the side of zero of the parts to come, so adding a part's sum is adding its delays
    rw [List.flatten_cons] at h ⊢
    have hp : SameSign (a :: p) := h.subset (List.cons_subset_cons a (List.subset_append_left p _))
    rw [List.map_cons, List.foldl_cons, hp.add_sum, ih h.total, List.foldl_append]

theorem sum_sums {parts : List (List Delay)} (h : SameSign parts.flatten) :
    sum (parts.map sum) = sum parts.flatten := by
  refine foldl_sums (a := zero) ?_
  rcases h with h | h
  · exact .inl (List.forall_mem_cons.2 ⟨Int.le_refl 0, h⟩)
  · exact .inr (List.forall_mem_cons.2 ⟨Int.le_refl 0, h⟩)

end SameSign

/-! ## Larger delays -/

theorem add_le_add (hab : a ≤ b) (hde : d ≤ e) : a + d ≤ b + e := by
  rw [le_def] at *
  rw [nanos_add, nanos_add]
  omega

theorem foldl_add_le_foldl_add (hds : List.Forall₂ (· ≤ ·) ds es) (hab : a ≤ b) :
    ds.foldl (· + ·) a ≤ es.foldl (· + ·) b := by
  induction hds generalizing a b with
  | nil => exact hab
  | cons hde _ ih => exact ih (add_le_add hab hde)

theorem forall₂_le_set {k : Nat} (hk : k < ds.length) (hle : ds[k] ≤ e) :
    List.Forall₂ (· ≤ ·) ds (ds.set k e) := by
  refine List.forall₂_iff_get.2 ⟨(List.length_set ..).symm, fun j hj hj' => ?_⟩
  rw [List.get_eq_getElem, List.get_eq_getElem, List.getElem_set]
  split
  · rename_i heq
    subst heq
    exact hle
  · exact Int.le_refl _

/-- A sum is one and the same however its delays are added up from left to right. It is exact while no partial sum
leaves the range. On one side of zero it is the exact sum stopped at the ends of the range, in any order and in any
parts. It never gets smaller for a larger delay. -/
theorem sum_stops_at_ends (ds : List Delay) :
    (ds.foldl (· + ·) zero = sum ds ∧ accrued zero ds = sum ds ∧
      ∀ d es, ds = d :: es → es.foldl (· + ·) d = sum ds ∧ accrued d es = sum ds) ∧
    ((∀ es ∈ ds.inits, -2 ^ 63 ≤ (es.map nanos).sum ∧ (es.map nanos).sum < 2 ^ 63) →
      (sum ds).nanos = (ds.map nanos).sum) ∧
    (SameSign ds → (sum ds).nanos = max (-2 ^ 63) (min (ds.map nanos).sum (2 ^ 63 - 1)) ∧
      (∀ es : List Delay, es.Perm ds → sum es = sum ds) ∧
      ∀ parts : List (List Delay), parts.flatten.Perm ds → sum (parts.map sum) = sum ds) ∧
    ∀ (k : Nat) (e : Delay) (hk : k < ds.length), ds[k] ≤ e → sum ds ≤ sum (ds.set k e) := by
  refine ⟨⟨rfl, accrued_eq_foldl ds zero, fun d es hds => ?_⟩, fun h => ?_, fun h => ?_, fun k e hk hle => ?_⟩
  · rw [accrued_eq_foldl, and_self, hds, sum, List.foldl_cons, zero_add]
  · have hexact : (sum ds).nanos = zero.nanos + (ds.map nanos).sum :=
      nanos_foldl_add_of_inits (by simpa [zero] using h)
    rwa [zero, Int.zero_add] at hexact
  · refine ⟨h.nanos_sum, fun es hperm => h.sum_perm hperm, fun parts hparts => ?_⟩
    rw [(h.subset hparts.subset).sum_sums, h.sum_perm hparts]
  · exact foldl_add_le_foldl_add (forall₂_le_set hk hle) (Int.le_refl _)

/-- Delays of both signs whose partial sums stay within the range, though they begin at the end of it. -/
def wavering : List Delay := [top, ⟨-8, by decide, by decide⟩, ⟨3, by decide, by decide⟩]

/-- Delays below zero that add up to less than the range holds. -/
def overfull : List Delay := [⟨-1, by decide, by decide⟩, bottom, zero, ⟨-6, by decide, by decide⟩]

theorem sum_stops_at_ends_overfull :
    ((∀ es ∈ wavering.inits, -2 ^ 63 ≤ (es.map nanos).sum ∧ (es.map nanos).sum < 2 ^ 63) ∧
      (sum wavering).nanos = 2 ^ 63 - 6 ∧ accrued zero wavering = sum wavering ∧
      wavering[1] ≤ zero ∧ sum wavering ≤ sum (wavering.set 1 zero)) ∧
    SameSign overfull ∧ sum overfull = bottom ∧ sum overfull.reverse = bottom ∧
      sum ([[bottom, overfull[3]], [], [zero, overfull[0]]].map sum) = bottom := by
  obtain ⟨⟨-, hsame, -⟩, hexact, -, hlarger⟩ := sum_stops_at_ends wavering
  obtain ⟨-, -, hside, -⟩ := sum_stops_at_ends overfull
  have hinits : ∀ es ∈ wavering.inits, -2 ^ 63 ≤ (es.map nanos).sum ∧ (es.map nanos).sum < 2 ^ 63 := by decide
  have hle : wavering[1] ≤ zero := by decide
  have hsign : SameSign overfull := by decide
  obtain ⟨hsum, hperm, hparts⟩ := hside hsign
  have hbottom : sum overfull = bottom := ext (hsum.trans (by decide))
  refine ⟨⟨hinits, ?_, hsame, hle, hlarger 1 zero (by decide) hle⟩, hsign, hbottom, ?_, ?_⟩
  · exact (hexact hinits).trans (by decide)
  · exact (hperm overfull.reverse overfull.reverse_perm).trans hbottom
  · exact (hparts [[bottom, overfull[3]], [], [zero, overfull[0]]] (by decide)).trans hbottom

/-- With delays on both sides of zero the order matters once the total has stopped. -/
example : sum [top, ⟨1, by decide, by decide⟩, ⟨-1, by decide, by decide⟩] ≠
    sum [top, ⟨-1, by decide, by decide⟩, ⟨1, by decide, by decide⟩] := by decide

end VirtualMesh.Delay

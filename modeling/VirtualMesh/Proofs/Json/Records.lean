import Mathlib.Data.List.Perm.Basic
import Mathlib.Data.List.Forall2
import VirtualMesh.Proofs.Json.Literals
import VirtualMesh.Proofs.Json.Parsing

/-!
# Records

An object shows the fields of a record under any spelling of their names, in any order, and among members of other
names. It is flawed if a field that has to be there is not, if a name repeats, or if the value of a field is flawed.
What the fields of an object are read as depends on nothing else.
-/

namespace VirtualMesh.Json

/-! ## Values that nobody reads -/

def Phrase.Skippable : Phrase → Prop
  | .value j => skippable j = true
  | .elements vs => skippableElements vs = true
  | .members ms => skippableMembers ms = true

theorem Written.isSkippable {p : Phrase} {cs : List Char} (h : Written p cs) : p.Skippable := by
  induction h with
  | null | isTrue | isFalse | number _ | noElements _ | noMembers _ =>
    simp [Phrase.Skippable, skippable, skippableElements, skippableMembers]
  | string hraw => exact hraw.isSkippable
  | array _ ih => exact ih
  | object _ ih => exact ih
  | lastElement _ _ _ ih => simpa [Phrase.Skippable, skippableElements] using ih
  | element _ _ _ _ ih ih' =>
    simp only [Phrase.Skippable, skippableElements] at ih ih' ⊢
    rw [ih, ih']
    rfl
  | lastMember _ hk _ _ _ _ ih =>
    simp only [Phrase.Skippable, skippableMembers] at ih ⊢
    rw [ih, hk.isSkippable]
    rfl
  | member _ hk _ _ _ _ _ ih ih' =>
    simp only [Phrase.Skippable, skippableMembers] at ih ih' ⊢
    rw [ih, ih', hk.isSkippable]
    rfl

/-! ## Objects that show a record -/

/-- What an object may show of a field: its name, whether it may be left out, and the values that stand for it. -/
structure Field where
  name : List Char
  mayMiss : Prop
  shows : Json → Prop

/-- Members that show some fields in order. -/
inductive Members : List Field → List (List Char × Json) → Prop where
  | nil : Members [] []
  | shown {f : Field} {fs : List Field} {k : List Char} {j : Json} {ms : List (List Char × Json)} :
      Spelling f.name k → f.shows j → Members fs ms → Members (f :: fs) ((k, j) :: ms)
  | leftOut {f : Field} {fs : List Field} {ms : List (List Char × Json)} : f.mayMiss → Members fs ms →
      Members (f :: fs) ms

/-- Members of other names, with any values. -/
def Extra (fs : List Field) (ms : List (List Char × Json)) : Prop :=
  ∀ m ∈ ms, (∃ name, Spelling name m.1 ∧ name ∉ fs.map Field.name) ∧ ∃ cs, Written (.value m.2) cs

inductive Shown (fs : List Field) : Json → Prop where
  | object {known extra ms : List (List Char × Json)} : Members fs known → Extra fs extra → ms.Perm (known ++ extra) →
      Shown fs (.object ms)

/-- What is found of a field stands for it. -/
def Field.Fits (f : Field) : Option Json → Prop
  | none => f.mayMiss
  | some j => f.shows j

/-! ## Objects that show no record -/

/-- A field of a kind of record: its name, whether it may be left out, and the values that stand for nothing. -/
structure Slot where
  name : List Char
  optional : Bool
  flawed : Json → Prop

inductive Flawed (slots : List Slot) : Json → Prop where
  | missing {s : Slot} {ms : List (List Char × Json)} : s ∈ slots → s.optional = false →
      (∀ m ∈ ms, ∃ name, Spelling name m.1 ∧ name ≠ s.name) → Flawed slots (.object ms)
  | repeated {s : Slot} {k k' : List Char} {v v' : Json} {rest ms : List (List Char × Json)} : s ∈ slots →
      Spelling s.name k → Spelling s.name k' → ms.Perm ((k, v) :: (k', v') :: rest) → Flawed slots (.object ms)
  | value {s : Slot} {k : List Char} {j : Json} {ms : List (List Char × Json)} : s ∈ slots → s.flawed j →
      Spelling s.name k → (k, j) ∈ ms → Flawed slots (.object ms)

/-! ## Reading fields -/

theorem mapM_eq_some_iff {α β : Type} {f : α → Option β} {l : List α} {l' : List β} :
    l.mapM f = some l' ↔ List.Forall₂ (fun a b => f a = some b) l l' := by
  induction l generalizing l' with
  | nil => simp [eq_comm]
  | cons a l ih =>
    rw [List.mapM_cons]
    constructor
    · intro h
      obtain ⟨b, hb, h⟩ := Option.bind_eq_some_iff.1 h
      obtain ⟨bs, hbs, h⟩ := Option.bind_eq_some_iff.1 h
      cases h
      exact .cons hb (ih.1 hbs)
    · rintro (_ | ⟨hb, hbs⟩)
      rw [hb, Option.bind_eq_bind, Option.bind_some, ih.2 hbs]
      rfl

section

variable {name : List Char} {ms all all' : List (List Char × Json)} {o : Option Json} {j : Json}

/-- The members of an object that have a name. -/
def named (name : List Char) (ms : List (List Char × Json)) : List (List Char × Json) := ms.filter fun m => m.1 = name

theorem named_cons (n : List Char × Json) (ms : List (List Char × Json)) :
    named name (n :: ms) = if n.1 = name then n :: named name ms else named name ms := by
  rw [named, List.filter_cons]
  simp only [decide_eq_true_eq]
  rfl

theorem named_eq_nil (h : ∀ n ∈ ms, n.1 ≠ name) : named name ms = [] :=
  List.filter_eq_nil_iff.2 fun n hn => by simpa using h n hn

theorem takeMember_eq (name : List Char) (ms : List (List Char × Json)) : takeMember name ms =
    match named name ms with
    | [] => some none
    | [(_, v)] => some (some v)
    | _ => none :=
  rfl

theorem takeMember_eq_some_none : takeMember name all = some none ↔ named name all = [] := by
  rw [takeMember_eq]
  rcases named name all with _ | ⟨⟨k, v⟩, _ | ⟨m, rest⟩⟩ <;> simp

theorem takeMember_eq_some_some : takeMember name all = some (some j) ↔ ∃ k, named name all = [(k, j)] := by
  rw [takeMember_eq]
  rcases named name all with _ | ⟨⟨k, v⟩, _ | ⟨m, rest⟩⟩ <;> simp

theorem takeMember_eq_none : takeMember name all = none ↔ 2 ≤ (named name all).length := by
  rw [takeMember_eq]
  rcases named name all with _ | ⟨⟨k, v⟩, _ | ⟨m, rest⟩⟩ <;> simp

/-- A member as it is read. -/
def Reads (m n : List Char × Json) : Prop := (literalText? m.1).map (·, m.2) = some n

theorem Spelling.reads {k : List Char} (h : Spelling name k) (j : Json) : Reads (k, j) (name, j) := by
  rw [Reads, h.literalText?]
  rfl

theorem Reads.eq {m n : List Char × Json} (h : Reads m n) (hspelling : Spelling name m.1) : n = (name, m.2) :=
  Option.some.inj (h.symm.trans (hspelling.reads m.2))

theorem fields?_object (names : List (List Char)) (ms : List (List Char × Json)) :
    fields? .skip names (.object ms) = (readNames ms).bind fun all =>
      if (all.filter fun m => !names.contains m.1).all fun m => m.2.skippable then names.mapM (takeMember · all)
      else none :=
  rfl

theorem readNames_eq_some : readNames ms = some all ↔ List.Forall₂ Reads ms all := mapM_eq_some_iff

end

variable {fs : List Field} {known extra ms : List (List Char × Json)} {j : Json} {os : List (Option Json)}

theorem Members.reads (h : Members fs known) (hnodup : (fs.map Field.name).Nodup) : ∃ ns os,
    List.Forall₂ Reads known ns ∧ (∀ n ∈ ns, n.1 ∈ fs.map Field.name) ∧ List.Forall₂ Field.Fits fs os ∧
      ∀ all, (∀ name ∈ fs.map Field.name, (named name all).Perm (named name ns)) →
        List.Forall₂ (fun f o => takeMember f.name all = some o) fs os := by
  -- `all` stands for the members with others among them: only those of a known name, up to their order, count
  induction h with
  | nil => exact ⟨[], [], .nil, by simp, .nil, fun _ _ => .nil⟩
  | @shown f fs k j ms hk hj _ ih =>
    rw [List.map_cons, List.nodup_cons] at hnodup
    obtain ⟨hf, hnodup⟩ := hnodup
    obtain ⟨ns, os, hreads, hnames, hfits, htake⟩ := ih hnodup
    refine ⟨(f.name, j) :: ns, some j :: os, .cons (hk.reads j) hreads, ?_, .cons hj hfits, fun all hall => ?_⟩
    · simpa using fun a b hab => .inr (by simpa using hnames (a, b) hab)
    · have hnil : named f.name ns = [] := named_eq_nil fun n hn heq => hf (heq ▸ hnames n hn)
      refine .cons ?_ (htake all fun name hname => ?_)
      · have hperm := hall f.name (by simp)
        rw [named_cons, if_pos rfl, hnil] at hperm
        exact takeMember_eq_some_some.2 ⟨_, List.perm_singleton.1 hperm⟩
      · have hperm := hall name (by simp_all)
        rwa [named_cons, if_neg fun heq : f.name = name => hf (heq ▸ hname)] at hperm
  | @leftOut f fs ms hmiss _ ih =>
    rw [List.map_cons, List.nodup_cons] at hnodup
    obtain ⟨hf, hnodup⟩ := hnodup
    obtain ⟨ns, os, hreads, hnames, hfits, htake⟩ := ih hnodup
    refine ⟨ns, none :: os, hreads, fun n hn => ?_, .cons hmiss hfits, fun all hall => ?_⟩
    · exact List.mem_cons_of_mem _ (hnames n hn)
    · have hnil : named f.name ns = [] := named_eq_nil fun n hn heq => hf (heq ▸ hnames n hn)
      refine .cons ?_ (htake all fun name hname => hall name (List.mem_cons_of_mem _ hname))
      have hperm := hall f.name List.mem_cons_self
      rw [hnil] at hperm
      exact takeMember_eq_some_none.2 (List.perm_nil.1 hperm)

theorem Extra.reads (h : Extra fs extra) : ∃ es, List.Forall₂ Reads extra es ∧
    ∀ n ∈ es, n.1 ∉ fs.map Field.name ∧ n.2.skippable = true := by
  induction extra with
  | nil => exact ⟨[], .nil, by simp⟩
  | cons m ms ih =>
    obtain ⟨⟨⟨name, hspelling, hname⟩, cs, hcs⟩, hms⟩ := List.forall_mem_cons.1 h
    obtain ⟨es, hreads, hes⟩ := ih hms
    refine ⟨(name, m.2) :: es, .cons (hspelling.reads m.2) hreads, ?_⟩
    exact List.forall_mem_cons.2 ⟨⟨hname, hcs.isSkippable⟩, hes⟩

/-- The fields that an object shows are found, and members of other names are skipped. -/
theorem Shown.fields? (h : Shown fs j) (hnodup : (fs.map Field.name).Nodup) :
    ∃ os, fields? .skip (fs.map Field.name) j = some os ∧ List.Forall₂ Field.Fits fs os := by
  obtain ⟨hknown, hextra, hperm⟩ := h
  rename_i known extra ms
  obtain ⟨ns, os, hns, hnames, hfits, htake⟩ := hknown.reads hnodup
  obtain ⟨es, hes, hothers⟩ := hextra.reads
  obtain ⟨all, hall, hperm⟩ := List.perm_comp_forall₂ hperm (List.rel_append hns hes)
  have hskip : (all.filter fun m => !(fs.map Field.name).contains m.1).all (fun m => m.2.skippable) = true := by
    refine List.all_eq_true.2 fun n hn => ?_
    obtain ⟨hn, hname⟩ := List.mem_filter.1 hn
    rw [Bool.not_eq_true', List.contains_eq_mem, decide_eq_false_iff_not] at hname
    rcases List.mem_append.1 (hperm.mem_iff.1 hn) with hn | hn
    · exact absurd (hnames n hn) hname
    · exact (hothers n hn).2
  have hfound : (fs.map Field.name).mapM (takeMember · all) = some os := by
    rw [mapM_eq_some_iff, List.forall₂_map_left_iff]
    refine htake all fun name hname => ?_
    have hnil : named name es = [] := named_eq_nil fun n hn heq => (hothers n hn).1 (heq ▸ hname)
    have hsplit := hperm.filter fun m => m.1 = name
    rw [List.filter_append] at hsplit
    rwa [← List.append_nil (named name ns), ← hnil]
  refine ⟨os, ?_, hfits⟩
  rw [fields?_object, readNames_eq_some.2 hall, Option.bind_some, if_pos hskip]
  exact hfound

/-! ## Errors -/

variable {slots : List Slot}

theorem fields?_eq_some (h : fields? .skip (slots.map Slot.name) (.object ms) = some os) :
    ∃ all, List.Forall₂ Reads ms all ∧ List.Forall₂ (fun s o => takeMember s.name all = some o) slots os := by
  rw [fields?_object] at h
  obtain ⟨all, hall, h⟩ := Option.bind_eq_some_iff.1 h
  refine ⟨all, readNames_eq_some.1 hall, ?_⟩
  split at h
  · rwa [mapM_eq_some_iff, List.forall₂_map_left_iff] at h
  · cases h

theorem exists_mem_zip {α β : Type} {r : α → β → Prop} {l : List α} {l' : List β} (h : List.Forall₂ r l l') {a : α}
    (ha : a ∈ l) : ∃ b, (a, b) ∈ l.zip l' ∧ r a b := by
  induction h with
  | nil => cases ha
  | @cons x y l l' hxy _ ih =>
    rcases List.mem_cons.1 ha with rfl | ha
    · exact ⟨y, List.mem_cons_self, hxy⟩
    · obtain ⟨b, hb, hr⟩ := ih ha
      exact ⟨b, List.mem_cons_of_mem _ hb, hr⟩

/-- What is found of a field is wrong: nothing if it has to be there, or a flawed value. -/
def Slot.Wrong (s : Slot) : Option Json → Prop
  | none => s.optional = false
  | some j => s.flawed j

/-- If fields are found in a flawed object at all, one of them is wrong. -/
theorem Flawed.exists_wrong (h : Flawed slots j) (hfields : fields? .skip (slots.map Slot.name) j = some os) :
    ∃ s o, (s, o) ∈ slots.zip os ∧ s.Wrong o := by
  cases h with
  | @missing s ms hs hrequired hmissing =>
    obtain ⟨all, hall, htake⟩ := fields?_eq_some hfields
    obtain ⟨o, hzip, ho⟩ := exists_mem_zip htake hs
    have hnil : named s.name all = [] := by
      refine named_eq_nil fun n hn => ?_
      obtain ⟨m, hm, hreads⟩ := exists_mem_zip hall.flip hn
      obtain ⟨name, hspelling, hne⟩ := hmissing m (List.of_mem_zip hm).2
      rwa [Reads.eq hreads hspelling]
    rw [takeMember_eq_some_none.2 hnil] at ho
    cases ho
    exact ⟨s, none, hzip, hrequired⟩
  | @repeated s k k' v v' rest ms hs hk hk' hperm =>
    obtain ⟨all, hall, htake⟩ := fields?_eq_some hfields
    obtain ⟨o, -, ho⟩ := exists_mem_zip htake hs
    obtain ⟨all', hall', hperm'⟩ := List.perm_comp_forall₂ hperm.symm hall
    -- two members of the name are two too many
    obtain _ | ⟨hfirst, _ | ⟨hsecond, -⟩⟩ := hall'
    rename_i n n' rest'
    have htwo : 2 ≤ (named s.name all).length := by
      rw [named, ← (hperm'.filter fun m => m.1 = s.name).length_eq, hfirst.eq hk, hsecond.eq hk']
      simp
    rw [takeMember_eq_none.2 htwo] at ho
    cases ho
  | @value s k v ms hs hflawed hk hmem =>
    obtain ⟨all, hall, htake⟩ := fields?_eq_some hfields
    obtain ⟨o, hzip, ho⟩ := exists_mem_zip htake hs
    obtain ⟨n, hn, hreads⟩ := exists_mem_zip hall hmem
    have hfound : (s.name, v) ∈ named s.name all := by
      rw [hreads.eq hk] at hn
      exact List.mem_filter.2 ⟨(List.of_mem_zip hn).2, decide_eq_true rfl⟩
    refine ⟨s, o, hzip, ?_⟩
    cases o with
    | none =>
      rw [takeMember_eq_some_none.1 ho] at hfound
      cases hfound
    | some w =>
      obtain ⟨k', hone⟩ := takeMember_eq_some_some.1 ho
      rw [hone, List.mem_singleton, Prod.mk.injEq] at hfound
      exact hfound.2 ▸ hflawed

end VirtualMesh.Json

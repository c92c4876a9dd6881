import VirtualMesh.Json.Values
import VirtualMesh.Proofs.Decimal
import VirtualMesh.Proofs.Json.Records

/-!
# Values through JSON

What is written is read back. Records are read from every object that shows their fields, whatever its layout, and
from no object that is flawed.
-/

namespace VirtualMesh

/-! ## Numerals -/

namespace Json

theorem whole_digits (n : Nat) : Whole (Decimal.digits n) := by
  rcases Nat.eq_zero_or_pos n with rfl | hpos
  · rw [Decimal.digits, if_pos (by decide)]
    exact .zero
  · obtain ⟨d, ds, hds, hd⟩ := Decimal.head_digits hpos
    have hdigits := Decimal.isDigit_of_mem_digits n
    rw [hds] at hdigits ⊢
    exact .digits hd ⟨List.cons_ne_nil _ _, hdigits⟩

theorem numeral_digits (n : Nat) : Numeral (Decimal.digits n) := by
  simpa using Numeral.unsigned (whole_digits n) .none .none

theorem numeral_signed (i : Int) : Numeral (Decimal.signed i) := by
  rw [Decimal.signed]
  split
  · simpa using Numeral.negative (whole_digits i.natAbs) .none .none
  · exact numeral_digits i.natAbs

theorem integer?_digits (n : Nat) : integer? (Decimal.digits n) = some (n : Int) := by
  have hall : (Decimal.digits n).all Char.isDigit = true := List.all_eq_true.2 (Decimal.isDigit_of_mem_digits n)
  rw [integer?]
  · rw [if_pos hall, Decimal.value_digits]
  · intro ds heq
    rw [heq] at hall
    cases hall

theorem integer?_signed (i : Int) : integer? (Decimal.signed i) = some i := by
  rw [Decimal.signed]
  split
  · rename_i hneg
    have hall : (Decimal.digits i.natAbs).all Char.isDigit = true :=
      List.all_eq_true.2 (Decimal.isDigit_of_mem_digits _)
    have hne : Decimal.value (Decimal.digits i.natAbs) ≠ 0 := by
      rw [Decimal.value_digits]
      omega
    rw [integer?, hall, decide_eq_true hne, Bool.and_self, if_pos rfl, Decimal.value_digits, Option.some.injEq]
    omega
  · rw [integer?_digits, Option.some.injEq]
    omega

theorem natBelow?_ofNat {n bound : Nat} (h : n < bound) : natBelow? bound (ofNat n) = some n := by
  have hint : (ofNat n).int? = some (n : Int) := integer?_digits n
  rw [natBelow?, hint]
  exact if_pos ⟨Int.natCast_nonneg n, Int.ofNat_lt.2 h⟩

theorem bytes?_ofBytes (bs : Bytes) : (ofBytes bs).bytes? = some bs := by
  rw [ofBytes, bytes?, mapM_eq_some_iff, List.forall₂_map_left_iff, List.forall₂_same]
  intro b _
  rw [natBelow?_ofNat b.toNat_lt, Option.map_some, UInt8.ofNat_toNat]

theorem string?_ofText (cs : List Char) : string? (ofText cs) = some cs := (spelling_escape cs).literalText?

end Json

/-! ## Addresses -/

namespace Address

/-- Behind a group and its hyphen come the other groups. -/
theorem drop_group {g : List Char} {n : Nat} (hg : g.length = n) (rest : List Char) (k : Nat) :
    (g ++ '-' :: rest).drop (n + 1 + k) = rest.drop k := by
  rw [Nat.add_assoc, ← List.drop_drop, List.drop_left' hg, Nat.add_comm 1, List.drop_succ_cons]

theorem joinGroups_groups {a b c d : List Char} (ha : a.length = 8) (hb : b.length = 4) (hc : c.length = 4)
    (hd : d.length = 4) (e : List Char) :
    joinGroups (a ++ '-' :: b ++ '-' :: c ++ '-' :: d ++ '-' :: e) = some (a ++ b ++ c ++ d ++ e) := by
  simp only [List.append_assoc, List.cons_append]
  let third := c ++ '-' :: (d ++ '-' :: e)
  let second := b ++ '-' :: third
  have hsecond : ∀ k, (a ++ '-' :: second).drop (9 + k) = second.drop k := drop_group ha second
  have hthird : ∀ k, (a ++ '-' :: second).drop (14 + k) = third.drop k := fun k => by
    rw [← drop_group hb third k, ← hsecond]
    congr 1
    omega
  have hfourth : ∀ k, (a ++ '-' :: second).drop (19 + k) = (d ++ '-' :: e).drop k := fun k => by
    rw [← drop_group hc _ k, ← hthird]
    congr 1
    omega
  have h8 : (a ++ '-' :: second).drop 8 = '-' :: second := List.drop_left' ha
  have h13 : (a ++ '-' :: second).drop 13 = '-' :: third := (hsecond 4).trans (List.drop_left' hb)
  have h18 : (a ++ '-' :: second).drop 18 = '-' :: (d ++ '-' :: e) := (hthird 4).trans (List.drop_left' hc)
  have h23 : (a ++ '-' :: second).drop 23 = '-' :: e := (hfourth 4).trans (List.drop_left' hd)
  have t8 : (a ++ '-' :: second).take 8 = a := List.take_left' ha
  have t9 : ((a ++ '-' :: second).drop 9).take 4 = b := by rw [hsecond 0]; exact List.take_left' hb
  have t14 : ((a ++ '-' :: second).drop 14).take 4 = c := by rw [hthird 0]; exact List.take_left' hc
  have t19 : ((a ++ '-' :: second).drop 19).take 4 = d := by rw [hfourth 0]; exact List.take_left' hd
  show joinGroups (a ++ '-' :: second) = _
  simp only [joinGroups, h8, h13, h18, h23, t8, t9, t14, t19, List.append_assoc]

/-- The form with hyphens is told from the others by its length and its first hyphen. -/
theorem ofText?_groups {g : List Char} (rest : List Char) (hg : g.length = 8)
    (hlength : (g ++ '-' :: rest).length = 36) :
    ofText? (g ++ '-' :: rest) = (joinGroups (g ++ '-' :: rest)).bind fun ds => (Hex.number? ds).bind ofNumber? := by
  have hurn : ((g ++ '-' :: rest).take 9).map Char.toLower ≠ urn := by
    intro heq
    have hninth := congrArg (fun cs => cs[8]?) heq
    simp [hg, urn] at hninth
  rw [ofText?, if_neg (by omega), if_neg (by simp [hlength]), if_neg hurn, ofHyphenated?, if_pos hlength]
  rfl

theorem ofText?_hyphenated (a : Address) : ofText? a.hyphenated = some a := by
  have hlength := Hex.length_padded 32 a.number
  have hnumber := Hex.number?_padded 32 a.number
  rw [Nat.mod_eq_of_lt (Nat.lt_of_lt_of_eq a.lt (by decide))] at hnumber
  rw [hyphenated]
  generalize Hex.padded 32 a.number = ds at hlength hnumber
  have hnext : ∀ k, (ds.drop k).take 4 ++ ds.drop (k + 4) = ds.drop k := fun k => by
    rw [← List.drop_drop, List.take_append_drop]
  have hgroups : ds.take 8 ++ (ds.drop 8).take 4 ++ (ds.drop 12).take 4 ++ (ds.drop 16).take 4 ++ ds.drop 20 = ds := by
    simp only [List.append_assoc]
    rw [hnext 16, hnext 12, hnext 8, List.take_append_drop]
  have hfour : ∀ k, k + 4 ≤ 32 → ((ds.drop k).take 4).length = 4 := fun k hk => by simp [hlength]; omega
  have hjoin := joinGroups_groups (a := ds.take 8) (by simp [hlength]) (hfour 8 (by decide)) (hfour 12 (by decide))
    (hfour 16 (by decide)) (ds.drop 20)
  rw [hgroups] at hjoin
  have hread := ofText?_groups (g := ds.take 8) ((ds.drop 8).take 4 ++ '-' :: ((ds.drop 12).take 4 ++
    '-' :: ((ds.drop 16).take 4 ++ '-' :: ds.drop 20))) (by simp [hlength]) (by simp [hlength])
  simp only [List.append_assoc, List.cons_append] at hjoin ⊢
  rw [hread, hjoin, Option.bind_some, hnumber, Option.bind_some]
  exact dif_pos a.lt

end Address

/-! ## Values that are read back -/

namespace Json

/-- Values whose written form is a text that is read as them. -/
class Lawful (α : Type) [Coded α] : Prop where
  decode?_encode (a : α) : Coded.decode? (Coded.encode a) = some a
  written (a : α) : Written (.value (Coded.encode a)) (Coded.encode a).render

theorem read?_write {α : Type} [Coded α] [Lawful α] (a : α) : read? (write a) = some a := by
  rw [read?, write, (Lawful.written a).text.parse?]
  exact Lawful.decode?_encode a

theorem written_ofBytes (bs : Bytes) : Written (.value (ofBytes bs)) (ofBytes bs).render := by
  rw [ofBytes]
  refine written_render_array fun v hv => ?_
  obtain ⟨b, -, rfl⟩ := List.mem_map.1 hv
  rw [ofNat, render]
  exact .number (numeral_digits b.toNat)

end Json

open Json

instance : Lawful UInt64 where
  decode?_encode n := by
    simp only [Coded.decode?, Coded.encode, natBelow?_ofNat n.toNat_lt, Option.map_some, UInt64.ofNat_toNat]
  written n := by
    show Written (.value (ofNat n.toNat)) (ofNat n.toNat).render
    rw [ofNat, render]
    exact .number (numeral_digits n.toNat)

instance : Lawful Height where
  decode?_encode h := by
    show (Coded.decode? (Coded.encode h.value)).map Height.mk = some h
    rw [Lawful.decode?_encode]
    rfl
  written h := Lawful.written h.value

instance : Lawful Round where
  decode?_encode r := by
    show (Coded.decode? (Coded.encode r.value)).map Round.mk = some r
    rw [Lawful.decode?_encode]
    rfl
  written r := Lawful.written r.value

instance : Lawful Delay where
  decode?_encode d := by
    show (ofInt d.nanos).int?.bind Delay.ofInt? = some d
    rw [ofInt, int?, integer?_signed]
    exact dif_pos ⟨d.ge, d.lt⟩
  written d := by
    show Written (.value (ofInt d.nanos)) (ofInt d.nanos).render
    rw [ofInt, render]
    exact .number (numeral_signed d.nanos)

instance : Lawful State where
  decode?_encode s := by
    show (ofBytes s.bytes).bytes?.map State.mk = some s
    rw [bytes?_ofBytes]
    rfl
  written s := written_ofBytes s.bytes

instance : Lawful PublicKey where
  decode?_encode k := by
    show (ofBytes k.bytes).bytes?.map PublicKey.mk = some k
    rw [bytes?_ofBytes]
    rfl
  written k := written_ofBytes k.bytes

instance : Lawful Address where
  decode?_encode a := by
    show (string? (ofText a.hyphenated)).bind Address.ofText? = some a
    rw [string?_ofText, Option.bind_some, a.ofText?_hyphenated]
  written a := by
    show Written (.value (ofText a.hyphenated)) (ofText a.hyphenated).render
    rw [ofText, render]
    exact .string (spelling_escape a.hyphenated).literal

/-! ## Fields -/

namespace Json

section

variable {α : Type} [Coded α] {name : String} {fs : List Field} {slots : List Slot} {o : Option Json}

def Field.plain (name : String) (a : α) : Field := ⟨name.toList, False, (· = Coded.encode a)⟩

def Field.option (name : String) (a : Option α) : Field := ⟨name.toList, a = none, (· = encodeOption a)⟩

/-- A field whose value is a record. -/
def Field.nested (name : String) (fs : List Field) : Field := ⟨name.toList, False, Shown fs⟩

def Slot.plain (name : String) : Slot := ⟨name.toList, false, fun _ => False⟩

def Slot.option (name : String) : Slot := ⟨name.toList, true, fun _ => False⟩

def Slot.nested (name : String) (slots : List Slot) : Slot := ⟨name.toList, false, Flawed slots⟩

theorem required_of_fits [Lawful α] {a : α} (h : (Field.plain name a).Fits o) : required o = some a := by
  cases o with
  | none => cases h
  | some j =>
    obtain rfl : j = Coded.encode a := h
    exact Lawful.decode?_encode a

theorem optional_of_fits {d : Option Delay} (h : (Field.option name d).Fits o) : optional o = some d := by
  cases o with
  | none =>
    obtain rfl : d = none := h
    rfl
  | some j =>
    obtain rfl : j = encodeOption d := h
    cases d with
    | none => rfl
    | some d =>
      show (Coded.decode? (Coded.encode d)).map some = some (some d)
      rw [Lawful.decode?_encode]
      rfl

theorem required_of_nested_fits {a : α} (hread : ∀ j, Shown fs j → Coded.decode? j = some a)
    (h : (Field.nested name fs).Fits o) : required o = some a := by
  cases o with
  | none => cases h
  | some j => exact hread j h

theorem required_of_wrong (h : (Slot.plain name).Wrong o) : (required o : Option α) = none := by
  cases o with
  | none => rfl
  | some j => cases h

theorem not_wrong_option (h : (Slot.option name).Wrong o) : False := by
  cases o with
  | none => cases h
  | some j => cases h

theorem required_of_nested_wrong (hread : ∀ j, Flawed slots j → (Coded.decode? j : Option α) = none)
    (h : (Slot.nested name slots).Wrong o) : (required o : Option α) = none := by
  cases o with
  | none => rfl
  | some j => exact hread j h

theorem shown_of_members {ms : List (List Char × Json)} (h : Members fs ms) : Shown fs (.object ms) := by
  have hextra : Extra fs [] := nofun
  exact .object h hextra (by rw [List.append_nil])

/-- A name without quotes and backslashes is written as it is. -/
theorem spelling_name (name : String) (h : name.toList.all (fun c => IsPlain c) = true) :
    Spelling name.toList name.toList := by
  generalize name.toList = cs at h
  induction cs with
  | nil => exact .nil
  | cons c cs ih =>
    rw [List.all_cons, Bool.and_eq_true, decide_eq_true_eq] at h
    exact .plain h.1 (ih h.2)

theorem written_record {ms : List (String × Json)}
    (h : ∀ m ∈ ms, m.1.toList.all (fun c => IsPlain c) = true ∧ Written (.value m.2) m.2.render) :
    Written (.value (record ms)) (record ms).render := by
  refine written_render_object fun m hm => ?_
  obtain ⟨x, hx, rfl⟩ := List.mem_map.1 hm
  obtain ⟨hname, hvalue⟩ := h x hx
  exact ⟨(spelling_name x.1 hname).literal, hvalue⟩

theorem written_encodeOption [Lawful α] (a : Option α) :
    Written (.value (encodeOption a)) (encodeOption a).render := by
  cases a with
  | none =>
    rw [encodeOption, render]
    exact .null
  | some a => exact Lawful.written a

end

end Json

/-! ## Records -/

namespace LatencyStats

def fields (s : LatencyStats) : List Field := [.option "min" s.min, .option "max" s.max, .plain "total" s.total]

def slots : List Slot := [.option "min", .option "max", .plain "total"]

theorem decode?_shown {s : LatencyStats} {j : Json} (h : Shown s.fields j) : Coded.decode? j = some s := by
  have hnodup : ["min".toList, "max".toList, "total".toList].Nodup := by decide
  obtain ⟨os, hos, hfits⟩ := h.fields? hnodup
  obtain _ | ⟨hmin, _ | ⟨hmax, _ | ⟨htotal, _ | _⟩⟩⟩ := hfits
  have hfields : j.fields? .skip ["min".toList, "max".toList, "total".toList] = _ := hos
  simp only [Coded.decode?, hfields, optional_of_fits hmin, optional_of_fits hmax, required_of_fits htotal]
  rfl

theorem decode?_flawed {j : Json} (h : Flawed slots j) : Coded.decode? j = (none : Option LatencyStats) := by
  simp only [Coded.decode?]
  split
  · rename_i min max total hfields
    obtain ⟨s, o, hzip, hwrong⟩ := h.exists_wrong hfields
    simp only [slots, List.zip_cons_cons, List.zip_nil_right, List.mem_cons, Prod.mk.injEq, List.not_mem_nil,
      or_false] at hzip
    rcases hzip with ⟨rfl, rfl⟩ | ⟨rfl, rfl⟩ | ⟨rfl, rfl⟩
    · exact (not_wrong_option hwrong).elim
    · exact (not_wrong_option hwrong).elim
    · rw [required_of_wrong hwrong]
      simp
  · rfl

theorem shown_encode (s : LatencyStats) : Shown s.fields (Coded.encode s) :=
  shown_of_members <| .shown (spelling_name "min" (by decide)) rfl <| .shown (spelling_name "max" (by decide)) rfl <|
    .shown (spelling_name "total" (by decide)) rfl .nil

theorem written (s : LatencyStats) : Written (.value (Coded.encode s)) (Coded.encode s).render := by
  refine written_record ?_
  simp only [List.forall_mem_cons]
  exact ⟨⟨by decide, written_encodeOption s.min⟩,
    ⟨by decide, written_encodeOption s.max⟩,
    ⟨by decide, Lawful.written s.total⟩, nofun⟩

end LatencyStats

instance : Lawful LatencyStats := ⟨fun s => LatencyStats.decode?_shown s.shown_encode, LatencyStats.written⟩

namespace PeerStats

def fields (s : PeerStats) : List Field :=
  [.plain "messages" s.messages, .plain "bytes" s.bytes, .plain "dropped" s.dropped,
    .nested "latencies" s.latencies.fields]

def slots : List Slot := [.plain "messages", .plain "bytes", .plain "dropped", .nested "latencies" LatencyStats.slots]

theorem decode?_shown {s : PeerStats} {j : Json} (h : Shown s.fields j) : Coded.decode? j = some s := by
  have hnodup : ["messages".toList, "bytes".toList, "dropped".toList, "latencies".toList].Nodup := by decide
  obtain ⟨os, hos, hfits⟩ := h.fields? hnodup
  obtain _ | ⟨hmessages, _ | ⟨hbytes, _ | ⟨hdropped, _ | ⟨hlatencies, _ | _⟩⟩⟩⟩ := hfits
  have hfields : j.fields? .skip ["messages".toList, "bytes".toList, "dropped".toList, "latencies".toList] = _ := hos
  simp only [Coded.decode?, hfields, required_of_fits hmessages, required_of_fits hbytes, required_of_fits hdropped,
    required_of_nested_fits (fun _ => LatencyStats.decode?_shown) hlatencies]
  rfl

theorem decode?_flawed {j : Json} (h : Flawed slots j) : Coded.decode? j = (none : Option PeerStats) := by
  simp only [Coded.decode?]
  split
  · rename_i messages bytes dropped latencies hfields
    obtain ⟨s, o, hzip, hwrong⟩ := h.exists_wrong hfields
    simp only [slots, List.zip_cons_cons, List.zip_nil_right, List.mem_cons, Prod.mk.injEq, List.not_mem_nil,
      or_false] at hzip
    rcases hzip with ⟨rfl, rfl⟩ | ⟨rfl, rfl⟩ | ⟨rfl, rfl⟩ | ⟨rfl, rfl⟩
    · rw [required_of_wrong hwrong]
      rfl
    · rw [required_of_wrong hwrong]
      simp
    · rw [required_of_wrong hwrong]
      simp
    · rw [required_of_nested_wrong (fun _ => LatencyStats.decode?_flawed) hwrong]
      simp
  · rfl

theorem shown_encode (s : PeerStats) : Shown s.fields (Coded.encode s) :=
  shown_of_members <| .shown (spelling_name "messages" (by decide)) rfl <|
    .shown (spelling_name "bytes" (by decide)) rfl <| .shown (spelling_name "dropped" (by decide)) rfl <|
      .shown (spelling_name "latencies" (by decide)) s.latencies.shown_encode .nil

theorem written (s : PeerStats) : Written (.value (Coded.encode s)) (Coded.encode s).render := by
  refine written_record ?_
  simp only [List.forall_mem_cons]
  exact ⟨⟨by decide, Lawful.written s.messages⟩,
    ⟨by decide, Lawful.written s.bytes⟩,
    ⟨by decide, Lawful.written s.dropped⟩,
    ⟨by decide, Lawful.written s.latencies⟩, nofun⟩

end PeerStats

instance : Lawful PeerStats := ⟨fun s => PeerStats.decode?_shown s.shown_encode, PeerStats.written⟩

namespace MeshReport

def fields (r : MeshReport) : List Field :=
  [.plain "engines" r.engines, .plain "peers" r.peers, .nested "stats" r.stats.fields,
    .option "mean_latency" r.meanLatency]

def slots : List Slot := [.plain "engines", .plain "peers", .nested "stats" PeerStats.slots, .option "mean_latency"]

theorem decode?_shown {r : MeshReport} {j : Json} (h : Shown r.fields j) : Coded.decode? j = some r := by
  have hnodup : ["engines".toList, "peers".toList, "stats".toList, "mean_latency".toList].Nodup := by decide
  obtain ⟨os, hos, hfits⟩ := h.fields? hnodup
  obtain _ | ⟨hengines, _ | ⟨hpeers, _ | ⟨hstats, _ | ⟨hmean, _ | _⟩⟩⟩⟩ := hfits
  have hfields : j.fields? .skip ["engines".toList, "peers".toList, "stats".toList, "mean_latency".toList] = _ := hos
  simp only [Coded.decode?, hfields, required_of_fits hengines, required_of_fits hpeers,
    required_of_nested_fits (fun _ => PeerStats.decode?_shown) hstats, optional_of_fits hmean]
  rfl

theorem decode?_flawed {j : Json} (h : Flawed slots j) : Coded.decode? j = (none : Option MeshReport) := by
  simp only [Coded.decode?]
  split
  · rename_i engines peers stats mean hfields
    obtain ⟨s, o, hzip, hwrong⟩ := h.exists_wrong hfields
    simp only [slots, List.zip_cons_cons, List.zip_nil_right, List.mem_cons, Prod.mk.injEq, List.not_mem_nil,
      or_false] at hzip
    rcases hzip with ⟨rfl, rfl⟩ | ⟨rfl, rfl⟩ | ⟨rfl, rfl⟩ | ⟨rfl, rfl⟩
    · rw [required_of_wrong hwrong]
      rfl
    · rw [required_of_wrong hwrong]
      simp
    · rw [required_of_nested_wrong (fun _ => PeerStats.decode?_flawed) hwrong]
      simp
    · exact (not_wrong_option hwrong).elim
  · rfl

theorem shown_encode (r : MeshReport) : Shown r.fields (Coded.encode r) :=
  shown_of_members <| .shown (spelling_name "engines" (by decide)) rfl <|
    .shown (spelling_name "peers" (by decide)) rfl <|
      .shown (spelling_name "stats" (by decide)) r.stats.shown_encode <|
        .shown (spelling_name "mean_latency" (by decide)) rfl .nil

theorem written (r : MeshReport) : Written (.value (Coded.encode r)) (Coded.encode r).render := by
  refine written_record ?_
  simp only [List.forall_mem_cons]
  exact ⟨⟨by decide, Lawful.written r.engines⟩,
    ⟨by decide, Lawful.written r.peers⟩,
    ⟨by decide, Lawful.written r.stats⟩,
    ⟨by decide, written_encodeOption r.meanLatency⟩, nofun⟩

end MeshReport

instance : Lawful MeshReport := ⟨fun r => MeshReport.decode?_shown r.shown_encode, MeshReport.written⟩

/-! ## Survival -/

namespace Json

/-- Every value is read back from the text in which it is written. -/
def Survives (α : Type) [Coded α] : Prop := ∀ a : α, read? (write a) = some a

/-- A record is read from every text of an object that shows its fields, and no text of a flawed object is read. -/
structure ReadsRecords (α : Type) [Coded α] (fields : α → List Field) (slots : List Slot) : Prop where
  shown (a : α) (j : Json) (cs : List Char) : Shown (fields a) j → Text j cs → read? cs = some a
  flawed (j : Json) (cs : List Char) : Flawed slots j → Text j cs → (read? cs : Option α) = none

theorem readsRecords {α : Type} [Coded α] {fields : α → List Field} {slots : List Slot}
    (hshown : ∀ {a : α} {j : Json}, Shown (fields a) j → Coded.decode? j = some a)
    (hflawed : ∀ {j : Json}, Flawed slots j → Coded.decode? j = (none : Option α)) : ReadsRecords α fields slots where
  shown a j cs h htext := by
    rw [read?, htext.parse?]
    exact hshown h
  flawed j cs h htext := by
    rw [read?, htext.parse?]
    exact hflawed h

/-- Values of each kind survive their text. Records are moreover read from their fields in any layout, and from no
object that lacks a field which has to be there or repeats one. -/
theorem survives_text :
    (Survives Height ∧ Survives Round ∧ Survives Delay ∧ Survives State ∧ Survives PublicKey ∧ Survives Address ∧
      Survives LatencyStats ∧ Survives PeerStats ∧ Survives MeshReport) ∧
    ReadsRecords LatencyStats LatencyStats.fields LatencyStats.slots ∧
    ReadsRecords PeerStats PeerStats.fields PeerStats.slots ∧
    ReadsRecords MeshReport MeshReport.fields MeshReport.slots :=
  ⟨⟨read?_write, read?_write, read?_write, read?_write, read?_write, read?_write, read?_write, read?_write,
      read?_write⟩,
    readsRecords LatencyStats.decode?_shown LatencyStats.decode?_flawed,
    readsRecords PeerStats.decode?_shown PeerStats.decode?_flawed,
    readsRecords MeshReport.decode?_shown MeshReport.decode?_flawed⟩

def five : Delay := .ofInt 5

theorem encode_five : Coded.encode five = .number ['5'] := by
  have hdigits : Decimal.signed 5 = ['5'] := by
    rw [Decimal.signed, if_neg (by decide), Decimal.digits, if_pos (by decide)]
    rfl
  exact congrArg Json.number hdigits

theorem written_five : Written (.value (Coded.encode five)) ['5'] := by
  have hwhole : Whole ['5'] := .digits (by decide) ⟨by decide, List.forall_mem_singleton.2 rfl⟩
  rw [encode_five]
  exact .number (.unsigned hwhole .none .none)

/-- A record without a minimum, its fields in another order and the name of one of them escaped, with a member of
another name between them. -/
def reordered : List (List Char × Json) :=
  [("total".toList, Coded.encode five), (['é'], .array [.null]), ("\\u006dax".toList, Coded.encode five)]

theorem text_reordered : Text (.object reordered) "\x7b \"total\":5, \"é\":[null],\"\\u006dax\" :5\x7d".toList := by
  have hspace : Blanks [' '] := by decide
  have hmax : Literal "\\u006dax".toList := .unit (u := 0x6d) (by decide) (.plain (by decide) (.plain (by decide) .nil))
  have hother : Literal ['é'] := .plain (by decide) .nil
  have hnull := Written.array (.lastElement blanks_nil .null blanks_nil)
  have hlast := Written.lastMember blanks_nil hmax hspace blanks_nil written_five blanks_nil
  have hrest := Written.member hspace hother blanks_nil blanks_nil hnull blanks_nil hlast
  exact (Written.object (.member hspace (spelling_name "total" (by decide)).literal blanks_nil blanks_nil written_five
    blanks_nil hrest)).text

theorem text_repeated : Text (.object [("total".toList, Coded.encode five), ("total".toList, Coded.encode five)])
    "\x7b\"total\":5,\"total\":5\x7d".toList := by
  have htotal := (spelling_name "total" (by decide)).literal
  have hlast := Written.lastMember blanks_nil htotal blanks_nil blanks_nil written_five blanks_nil
  exact (Written.object (.member blanks_nil htotal blanks_nil blanks_nil written_five blanks_nil hlast)).text

theorem survives_text_reordered :
    read? "\x7b \"total\":5, \"é\":[null],\"\\u006dax\" :5\x7d".toList =
      some (⟨none, some five, five⟩ : LatencyStats) ∧
    (read? "\x7b\"total\":5,\"total\":5\x7d".toList : Option LatencyStats) = none := by
  obtain ⟨-, hread, -⟩ := survives_text
  have hmax : Spelling "max".toList "\\u006dax".toList :=
    .unit (u := 0x6d) (by decide) (.inl (by decide)) (.plain (by decide) (.plain (by decide) .nil))
  have htotal := spelling_name "total" (by decide)
  have hknown : Members (LatencyStats.fields ⟨none, some five, five⟩)
      [("\\u006dax".toList, Coded.encode five), ("total".toList, Coded.encode five)] :=
    .leftOut rfl (.shown hmax rfl (.shown htotal rfl .nil))
  have hextra : Extra (LatencyStats.fields ⟨none, some five, five⟩) [(['é'], .array [.null])] :=
    List.forall_mem_singleton.2 ⟨⟨['é'], .plain (by decide) .nil, by decide⟩,
      _, .array (.lastElement blanks_nil .null blanks_nil)⟩
  have hperm : ([("total".toList, Coded.encode five), (['é'], .array [.null])] ++
      [("\\u006dax".toList, Coded.encode five)]).Perm _ := List.perm_append_comm
  have hslot : Slot.plain "total" ∈ LatencyStats.slots := by simp [LatencyStats.slots]
  exact ⟨hread.shown _ _ _ (.object hknown hextra hperm) text_reordered,
    hread.flawed _ _ (.repeated hslot htotal htotal (.refl _)) text_repeated⟩

/-- An optional field may be left out even if the record has a value there: it is read as none. -/
theorem left_out_without_error : ∃ s : LatencyStats, s.min = some five ∧
    write s = "\x7b\"min\":5,\"max\":5,\"total\":5\x7d".toList ∧
    read? "\x7b\"max\":5,\"total\":5\x7d".toList = some { s with min := none } := by
  refine ⟨⟨some five, some five, five⟩, rfl, ?_, by decide +kernel⟩
  show (record [("min", Coded.encode five), ("max", Coded.encode five), ("total", Coded.encode five)]).render = _
  rw [encode_five]
  decide +kernel

end Json

end VirtualMesh

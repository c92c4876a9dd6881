import VirtualMesh.Proofs.Json.Grammar

/-!
# Reading what is written

Every text of a value is read as that value. A part of a text is read up to its end and no further, whatever stands
behind it, as long as that does not go on with a numeral.
-/

namespace VirtualMesh.Json

variable {cs raw rest : List Char}

/-! ## Numerals -/

/-- What does not go on with a numeral. -/
def Stops (cs : List Char) : Prop :=
  ∀ c, cs.head? = some c → c.isDigit = false ∧ c ≠ '.' ∧ c ≠ 'e' ∧ c ≠ 'E'

def NoDigit (cs : List Char) : Prop := ∀ c, cs.head? = some c → c.isDigit = false

theorem Stops.noDigit (h : Stops cs) : NoDigit cs := fun c hc => (h c hc).1

theorem Digits.scanDigits_append {ds : List Char} (h : Digits ds) (hrest : NoDigit rest) :
    scanDigits (ds ++ rest) = some (ds, rest) := by
  have htake : rest.takeWhile Char.isDigit = [] ∧ rest.dropWhile Char.isDigit = rest := by
    cases rest with
    | nil => exact ⟨rfl, rfl⟩
    | cons c rest =>
      have hc := hrest c rfl
      exact ⟨by rw [List.takeWhile_cons, hc]; rfl, by rw [List.dropWhile_cons, hc]; rfl⟩
  rw [scanDigits, List.takeWhile_append_of_pos h.isDigit, List.dropWhile_append_of_pos h.isDigit, htake.1, htake.2,
    List.append_nil]
  cases ds with
  | nil => exact absurd rfl h.ne_nil
  | cons d ds => rfl

theorem Whole.scanWhole_append {w : List Char} (h : Whole w) (hrest : NoDigit rest) :
    scanWhole (w ++ rest) = some (w, rest) := by
  cases h with
  | zero => rfl
  | @digits d ds hzero hds =>
    rw [List.cons_append, scanWhole, ← List.cons_append]
    · exact hds.scanDigits_append hrest
    · simp [hzero]

theorem Fraction.scanFraction_append {f : List Char} (h : Fraction f) (hrest : NoDigit rest)
    (hpoint : rest.head? ≠ some '.') : scanFraction (f ++ rest) = some (f, rest) := by
  cases h with
  | none =>
    rw [List.nil_append, scanFraction]
    rintro rest rfl
    exact hpoint rfl
  | digits hds =>
    rw [List.cons_append, scanFraction, hds.scanDigits_append hrest]
    rfl

theorem not_isSign_of_isDigit {d : Char} (h : d.isDigit = true) : isSign d = false := by
  rw [isSign, Bool.or_eq_false_iff, decide_eq_false_iff_not, decide_eq_false_iff_not]
  constructor <;> (rintro rfl; exact absurd h (by decide))

theorem Exponent.scanExponent_append {e : List Char} (h : Exponent e) (hrest : Stops rest) :
    scanExponent (e ++ rest) = some (e, rest) := by
  cases h with
  | none =>
    have hmark : ∀ c, rest.head? = some c → isExponentMark c = false := by
      intro c hc
      obtain ⟨-, -, he, hE⟩ := hrest c hc
      rw [isExponentMark, decide_eq_false he, decide_eq_false hE]
      rfl
    -- the scanner looks at two characters, the mark and a sign
    match rest with
    | [] => rfl
    | [c] => rw [List.nil_append, scanExponent, hmark c rfl]; rfl
    | c :: d :: rest => rw [List.nil_append, scanExponent, hmark c rfl]; rfl
  | @digits mark sign ds hmark hsign hds =>
    have hmark : isExponentMark mark = true := by
      rcases hmark with rfl | rfl <;> rfl
    have hscan := hds.scanDigits_append hrest.noDigit
    rcases hsign with rfl | rfl | rfl
    · cases ds with
      | nil => exact absurd rfl hds.ne_nil
      | cons d ds =>
        have hd := not_isSign_of_isDigit (hds.isDigit d List.mem_cons_self)
        rw [List.cons_append] at hscan
        rw [List.nil_append, List.cons_append, List.cons_append, scanExponent, hmark, hd, hscan]
        rfl
    all_goals
      rw [List.cons_append, List.append_assoc, List.cons_append, List.nil_append, scanExponent, hmark, hscan]
      rfl

theorem Exponent.stops_append {e : List Char} (h : Exponent e) (hrest : Stops rest) :
    NoDigit (e ++ rest) ∧ (e ++ rest).head? ≠ some '.' := by
  cases h with
  | none => exact ⟨hrest.noDigit, fun hpoint => (hrest _ hpoint).2.1 rfl⟩
  | digits hmark _ _ =>
    constructor
    · rintro c hc
      obtain rfl := Option.some.inj hc
      rcases hmark with rfl | rfl <;> rfl
    · intro hpoint
      cases Option.some.inj hpoint
      rcases hmark with hmark | hmark <;> exact absurd hmark (by decide)

theorem Fraction.noDigit_append {f : List Char} (h : Fraction f) (hrest : NoDigit rest) : NoDigit (f ++ rest) := by
  cases h with
  | none => exact hrest
  | digits _ =>
    rintro c hc
    obtain rfl := Option.some.inj hc
    rfl

theorem scanUnsigned_append {w f e : List Char} (hw : Whole w) (hf : Fraction f) (he : Exponent e)
    (hrest : Stops rest) : scanUnsigned (w ++ f ++ e ++ rest) = some (w ++ f ++ e, rest) := by
  obtain ⟨hdigit, hpoint⟩ := he.stops_append hrest
  rw [List.append_assoc, List.append_assoc, scanUnsigned, hw.scanWhole_append (hf.noDigit_append hdigit)]
  simp only [bind, Option.bind, hf.scanFraction_append hdigit hpoint, he.scanExponent_append hrest]
  rfl

theorem Whole.head {w : List Char} (h : Whole w) : ∃ d ds, w = d :: ds ∧ d.isDigit = true := by
  cases h with
  | zero => exact ⟨_, _, rfl, rfl⟩
  | digits _ hds => exact ⟨_, _, rfl, hds.isDigit _ List.mem_cons_self⟩

theorem Numeral.scanNumber_append {text : List Char} (h : Numeral text) (hrest : Stops rest) :
    scanNumber (text ++ rest) = some (text, rest) := by
  cases h with
  | unsigned hw hf he =>
    obtain ⟨d, ds, rfl, hd⟩ := hw.head
    have hscan := scanUnsigned_append hw hf he hrest
    simp only [List.cons_append] at hscan ⊢
    rw [scanNumber, hscan]
    rintro rest heq
    obtain rfl := (List.cons.inj heq).1
    exact absurd hd (by decide)
  | negative hw hf he =>
    rw [List.cons_append, scanNumber, scanUnsigned_append hw hf he hrest]
    rfl

/-! ## Literals and blanks -/

theorem scanLiteral_cons {c : Char} (hquote : c ≠ '"') (hbackslash : c ≠ '\\') (rest : List Char) :
    scanLiteral (c :: rest) = (scanLiteral rest).map fun x => (c :: x.1, x.2) := by
  rw [scanLiteral]
  all_goals simp [hquote, hbackslash]

theorem value?_ne_none_of_foldlM {ds : List Char} {start u : Nat}
    (h : ds.foldlM (fun v c => (Hex.value? c).map (16 * v + ·)) start = some u) : ∀ d ∈ ds, Hex.value? d ≠ none := by
  induction ds generalizing start with
  | nil => exact fun _ hd => nomatch hd
  | cons d ds ih =>
    rw [List.foldlM_cons] at h
    obtain ⟨v, hv, hrest⟩ := Option.bind_eq_some_iff.1 h
    refine List.forall_mem_cons.2 ⟨fun hnone => ?_, ih hrest⟩
    rw [hnone] at hv
    cases hv

theorem ne_of_number? {ds : List Char} {u : Nat} (h : Hex.number? ds = some u) : ∀ d ∈ ds, d ≠ '"' ∧ d ≠ '\\' := by
  intro d hd
  have hvalue := value?_ne_none_of_foldlM h d hd
  constructor <;> (rintro rfl; exact hvalue rfl)

theorem Literal.scanLiteral_append (h : Literal raw) (rest : List Char) :
    scanLiteral (raw ++ '"' :: rest) = some (raw, rest) := by
  induction h with
  | nil => rfl
  | plain hc _ ih => rw [List.cons_append, scanLiteral_cons hc.2.1 hc.2.2, ih]; rfl
  | escaped _ _ ih =>
    rw [List.cons_append, List.cons_append, scanLiteral, ih]
    rfl
  | unit hu _ ih =>
    have hdigits := ne_of_number? hu
    simp only [List.mem_cons, List.not_mem_nil, or_false, forall_eq_or_imp, forall_eq] at hdigits
    obtain ⟨⟨ha, ha'⟩, ⟨hb, hb'⟩, ⟨hc, hc'⟩, hd, hd'⟩ := hdigits
    simp only [List.cons_append]
    rw [scanLiteral, scanLiteral_cons ha ha', scanLiteral_cons hb hb', scanLiteral_cons hc hc',
      scanLiteral_cons hd hd', ih]
    rfl

theorem isBlank_of_blanks {b : List Char} (h : Blanks b) : ∀ c ∈ b, isBlank c = true := by
  intro c hc
  rcases h c hc with rfl | rfl | rfl | rfl <;> rfl

theorem skipBlanks_append {b : List Char} (h : Blanks b) (cs : List Char) : skipBlanks (b ++ cs) = skipBlanks cs :=
  List.dropWhile_append_of_pos (isBlank_of_blanks h)

theorem skipBlanks_cons {c : Char} (h : isBlank c = false) (cs : List Char) : skipBlanks (c :: cs) = c :: cs := by
  rw [skipBlanks, List.dropWhile_cons, h]
  rfl

theorem Blanks.skipBlanks_append_cons {b : List Char} (hb : Blanks b) {c : Char} (hc : isBlank c = false)
    (rest : List Char) : skipBlanks (b ++ c :: rest) = c :: rest := by
  rw [skipBlanks_append hb, skipBlanks_cons hc]

theorem skipBlanks_skipBlanks (cs : List Char) : skipBlanks (skipBlanks cs) = skipBlanks cs := by
  induction cs with
  | nil => rfl
  | cons c cs ih =>
    cases hc : isBlank c with
    | true =>
      have hskip : skipBlanks (c :: cs) = skipBlanks cs := by rw [skipBlanks, List.dropWhile_cons, hc]; rfl
      rw [hskip, ih]
    | false => rw [skipBlanks_cons hc, skipBlanks_cons hc]

/-- Behind a value stand blanks and then a mark that is part of no numeral. -/
theorem Blanks.stops {b : List Char} (h : Blanks b) (hrest : Stops rest) : Stops (b ++ rest) := by
  cases b with
  | nil => exact hrest
  | cons c b =>
    intro d hd
    obtain rfl := Option.some.inj hd
    rcases h c List.mem_cons_self with rfl | rfl | rfl | rfl <;> decide

/-! ## Values -/

theorem parseValue_congr {cs cs' : List Char} (h : skipBlanks cs = skipBlanks cs') (depth : Nat) :
    parseValue depth cs = parseValue depth cs' := by
  cases depth with
  | zero => rw [parseValue, parseValue]
  | succ depth => rw [parseValue, parseValue, h]

theorem scanKey_congr {cs cs' : List Char} (h : skipBlanks cs = skipBlanks cs') : scanKey cs = scanKey cs' := by
  rw [scanKey, scanKey, h]

theorem parseElements_congr {cs cs' : List Char} (h : skipBlanks cs = skipBlanks cs') (depth : Nat) :
    parseElements depth cs = parseElements depth cs' := by
  cases depth with
  | zero => rw [parseElements, parseElements]
  | succ depth => rw [parseElements, parseElements, parseValue_congr h]

theorem parseMembers_congr {cs cs' : List Char} (h : skipBlanks cs = skipBlanks cs') (depth : Nat) :
    parseMembers depth cs = parseMembers depth cs' := by
  cases depth with
  | zero => rw [parseMembers, parseMembers]
  | succ depth => rw [parseMembers, parseMembers, scanKey_congr h]

theorem scanKey_append {a k b : List Char} (ha : Blanks a) (hk : Literal k) (hb : Blanks b) (rest : List Char) :
    scanKey (a ++ '"' :: (k ++ '"' :: (b ++ ':' :: rest))) = some (k, rest) := by
  have hcolon := hb.skipBlanks_append_cons (c := ':') rfl rest
  rw [scanKey, skipBlanks_append ha, skipBlanks_cons rfl]
  simp only [hk.scanLiteral_append, bind, Option.bind, hcolon]
  rfl

theorem parseValue_number {cs : List Char} {d : Char} {ds : List Char} (hskip : skipBlanks cs = d :: ds)
    (hd : d = '-' ∨ d.isDigit = true) (depth : Nat) :
    parseValue (depth + 1) cs = (scanNumber (d :: ds)).map fun x => (.number x.1, x.2) := by
  rw [parseValue, hskip]
  split
  case h_7 => rfl
  all_goals
    rename_i heq
    cases heq
    exact absurd hd (by decide)

theorem Numeral.head {text : List Char} (h : Numeral text) : ∃ d ds, text = d :: ds ∧ (d = '-' ∨ d.isDigit = true) := by
  cases h with
  | unsigned hw _ _ =>
    obtain ⟨d, ds, rfl, hd⟩ := hw.head
    exact ⟨d, _, rfl, .inr hd⟩
  | negative _ _ _ => exact ⟨'-', _, rfl, .inl rfl⟩

theorem not_isBlank_of_numeral {d : Char} (h : d = '-' ∨ d.isDigit = true) : isBlank d = false := by
  rw [isBlank]
  simp only [Bool.or_eq_false_iff, decide_eq_false_iff_not]
  refine ⟨⟨⟨?_, ?_⟩, ?_⟩, ?_⟩ <;> (rintro rfl; exact absurd h (by decide))

/-- A value begins with a character that is no blank and ends no array. -/
theorem Written.head {j : Json} (h : Written (.value j) cs) : ∃ c t, cs = c :: t ∧ isBlank c = false ∧ c ≠ ']' := by
  cases h with
  | number hn =>
    obtain ⟨d, ds, rfl, hd⟩ := hn.head
    refine ⟨d, ds, rfl, not_isBlank_of_numeral hd, ?_⟩
    rintro rfl
    exact absurd hd (by decide)
  | _ => exact ⟨_, _, rfl, rfl, by decide⟩

theorem Written.head_elements {vs : List Json} (h : Written (.elements vs) cs) (rest : List Char) :
    ∃ c t, skipBlanks (cs ++ rest) = c :: t ∧ c ≠ ']' := by
  cases h with
  | lastElement ha hv _ | element ha hv _ _ =>
    obtain ⟨c, t, rfl, hblank, hc⟩ := hv.head
    simp only [List.append_assoc, List.cons_append]
    rw [skipBlanks_append ha, skipBlanks_cons hblank]
    exact ⟨c, _, rfl, hc⟩

theorem Written.head_members {ms : List (List Char × Json)} (h : Written (.members ms) cs) (rest : List Char) :
    ∃ t, skipBlanks (cs ++ rest) = '"' :: t := by
  cases h with
  | lastMember ha _ _ _ _ _ | member ha _ _ _ _ _ _ =>
    simp only [List.append_assoc, List.cons_append]
    rw [skipBlanks_append ha, skipBlanks_cons rfl]
    exact ⟨_, rfl⟩

/-- How a part of a text is read with something behind it, by calls `depth` levels deep. -/
def Phrase.Parsed (depth : Nat) (cs rest : List Char) : Phrase → Prop
  | .value j => Stops rest → parseValue depth (cs ++ rest) = some (j, rest)
  | .elements vs => parseElements depth (cs ++ rest) = some (vs, rest)
  | .members ms => parseMembers depth (cs ++ rest) = some (ms, rest)

theorem stops_cons {c : Char} (h : c = ',' ∨ c = ']' ∨ c = '}') (rest : List Char) : Stops (c :: rest) := by
  intro d hd
  obtain rfl := Option.some.inj hd
  rcases h with rfl | rfl | rfl <;> decide

theorem parseElements_last {v : Json} {depth : Nat} {b : List Char} (hb : Blanks b)
    (h : parseValue depth cs = some (v, b ++ ']' :: rest)) : parseElements (depth + 1) cs = some ([v], rest) := by
  have hskip := hb.skipBlanks_append_cons (c := ']') rfl rest
  simp only [parseElements, h, bind, Option.bind, hskip]
  rfl

theorem parseElements_next {v : Json} {vs : List Json} {depth : Nat} {b rest' : List Char} (hb : Blanks b)
    (h : parseValue depth cs = some (v, b ++ ',' :: rest)) (hrest : parseElements depth rest = some (vs, rest')) :
    parseElements (depth + 1) cs = some (v :: vs, rest') := by
  have hskip := hb.skipBlanks_append_cons (c := ',') rfl rest
  simp only [parseElements, h, bind, Option.bind, hskip, hrest]
  rfl

theorem parseMembers_last {k : List Char} {v : Json} {depth : Nat} {cs' b : List Char} (hk : scanKey cs = some (k, cs'))
    (hb : Blanks b) (h : parseValue depth cs' = some (v, b ++ '}' :: rest)) :
    parseMembers (depth + 1) cs = some ([(k, v)], rest) := by
  have hskip := hb.skipBlanks_append_cons (c := '}') rfl rest
  simp only [parseMembers, hk, h, bind, Option.bind, hskip]
  rfl

theorem parseMembers_next {k : List Char} {v : Json} {ms : List (List Char × Json)} {depth : Nat}
    {cs' b rest' : List Char} (hk : scanKey cs = some (k, cs')) (hb : Blanks b)
    (h : parseValue depth cs' = some (v, b ++ ',' :: rest)) (hrest : parseMembers depth rest = some (ms, rest')) :
    parseMembers (depth + 1) cs = some ((k, v) :: ms, rest') := by
  have hskip := hb.skipBlanks_append_cons (c := ',') rfl rest
  simp only [parseMembers, hk, h, bind, Option.bind, hskip, hrest]
  rfl

/-- A call for a text of this length may make another one. -/
theorem exists_depth {n depth : Nat} (h : 2 * (n + 1) ≤ depth) : ∃ d, depth = d + 1 ∧ 2 * n + 1 ≤ d :=
  ⟨depth - 1, by omega, by omega⟩

theorem Written.parsed {p : Phrase} (h : Written p cs) :
    ∀ (depth : Nat) (rest : List Char), 2 * cs.length ≤ depth → p.Parsed depth cs rest := by
  -- by the shape of the text; calls nest no deeper than twice its length, as each takes a mark away or is for a part
  induction h with
  | null | isTrue | isFalse =>
    intro depth rest hdepth _
    obtain ⟨depth, rfl, -⟩ := exists_depth hdepth
    rfl
  | @number text hn =>
    intro depth rest hdepth hrest
    obtain ⟨d, ds, rfl, hd⟩ := hn.head
    obtain ⟨depth, rfl, -⟩ := exists_depth hdepth
    have hskip : skipBlanks ((d :: ds) ++ rest) = d :: (ds ++ rest) := skipBlanks_cons (not_isBlank_of_numeral hd) _
    rw [parseValue_number hskip hd, ← List.cons_append, hn.scanNumber_append hrest]
    rfl
  | @string raw hraw =>
    intro depth rest hdepth _
    obtain ⟨depth, rfl, -⟩ := exists_depth hdepth
    rw [List.append_assoc, List.cons_append, parseValue, skipBlanks_cons rfl]
    simp only [List.singleton_append, hraw.scanLiteral_append]
    rfl
  | @noElements b hb =>
    intro depth rest hdepth _
    obtain ⟨depth, rfl, -⟩ := exists_depth hdepth
    have hskip := hb.skipBlanks_append_cons (c := ']') rfl rest
    rw [List.append_assoc, List.cons_append, parseValue, skipBlanks_cons rfl]
    simp only [List.singleton_append, hskip]
  | @array vs cs hvs ih =>
    intro depth rest hdepth _
    obtain ⟨depth, rfl, hdepth⟩ := exists_depth hdepth
    obtain ⟨c, t, hskip, hc⟩ := hvs.head_elements rest
    have hread : parseElements depth (c :: t) = some (vs, rest) := by
      rw [← hskip, parseElements_congr (skipBlanks_skipBlanks _)]
      exact ih depth rest (by omega)
    rw [List.cons_append, parseValue, skipBlanks_cons rfl]
    simp only [hskip]
    split
    · rename_i heq
      exact absurd (List.cons.inj heq).1 hc
    · rw [hread]
      rfl
  | @noMembers b hb =>
    intro depth rest hdepth _
    obtain ⟨depth, rfl, -⟩ := exists_depth hdepth
    have hskip := hb.skipBlanks_append_cons (c := '}') rfl rest
    rw [List.append_assoc, List.cons_append, parseValue, skipBlanks_cons rfl]
    simp only [List.singleton_append, hskip]
  | @object ms cs hms ih =>
    intro depth rest hdepth _
    obtain ⟨depth, rfl, hdepth⟩ := exists_depth hdepth
    obtain ⟨t, hskip⟩ := hms.head_members rest
    have hread : parseMembers depth ('"' :: t) = some (ms, rest) := by
      rw [← hskip, parseMembers_congr (skipBlanks_skipBlanks _)]
      exact ih depth rest (by omega)
    rw [List.cons_append, parseValue, skipBlanks_cons rfl]
    simp only [hskip]
    split
    · rename_i heq
      exact absurd (List.cons.inj heq).1 (by decide)
    · rw [hread]
      rfl
  | @lastElement v a cs b ha _ hb ih =>
    intro depth rest hdepth
    simp only [List.length_append, List.length_singleton] at hdepth
    obtain ⟨depth, rfl, hdepth⟩ := exists_depth hdepth
    have hvalue := ih depth (b ++ ']' :: rest) (by omega) (hb.stops (stops_cons (.inr (.inl rfl)) rest))
    show parseElements (depth + 1) (_ ++ rest) = _
    simp only [List.append_assoc, List.singleton_append]
    exact parseElements_last hb ((parseValue_congr (skipBlanks_append ha _) depth).trans hvalue)
  | @element v vs a cs b tail ha _ hb _ ih ih' =>
    intro depth rest hdepth
    simp only [List.length_append, List.length_cons, ← Nat.add_assoc] at hdepth
    obtain ⟨depth, rfl, hdepth⟩ := exists_depth hdepth
    have hvalue := ih depth (b ++ ',' :: (tail ++ rest)) (by omega) (hb.stops (stops_cons (.inl rfl) _))
    show parseElements (depth + 1) (_ ++ rest) = _
    simp only [List.append_assoc, List.cons_append]
    exact parseElements_next hb ((parseValue_congr (skipBlanks_append ha _) depth).trans hvalue)
      (ih' depth rest (by omega))
  | @lastMember k a b c cs d v ha hk hb hc _ hd ih =>
    intro depth rest hdepth
    simp only [List.length_append, List.length_cons, List.length_nil, ← Nat.add_assoc] at hdepth
    obtain ⟨depth, rfl, hdepth⟩ := exists_depth hdepth
    have hvalue := ih depth (d ++ '}' :: rest) (by omega) (hd.stops (stops_cons (.inr (.inr rfl)) rest))
    show parseMembers (depth + 1) (_ ++ rest) = _
    simp only [List.append_assoc, List.cons_append, List.nil_append]
    exact parseMembers_last (scanKey_append ha hk hb _) hd
      ((parseValue_congr (skipBlanks_append hc _) depth).trans hvalue)
  | @member k a b c cs d tail v ms ha hk hb hc _ hd _ ih ih' =>
    intro depth rest hdepth
    simp only [List.length_append, List.length_cons, ← Nat.add_assoc] at hdepth
    obtain ⟨depth, rfl, hdepth⟩ := exists_depth hdepth
    have hvalue := ih depth (d ++ ',' :: (tail ++ rest)) (by omega) (hd.stops (stops_cons (.inl rfl) _))
    show parseMembers (depth + 1) (_ ++ rest) = _
    simp only [List.append_assoc, List.cons_append]
    exact parseMembers_next (scanKey_append ha hk hb _) hd
      ((parseValue_congr (skipBlanks_append hc _) depth).trans hvalue) (ih' depth rest (by omega))

theorem Text.parse? {j : Json} (h : Text j cs) : parse? cs = some j := by
  obtain ⟨a, t, b, ha, ht, hb, rfl⟩ := h
  have hend : Stops b := List.append_nil b ▸ hb.stops nofun
  have hvalue := ht.parsed (2 * (a ++ t ++ b).length + 1) b (by simp only [List.length_append]; omega) hend
  have hskip : skipBlanks (b ++ []) = [] := skipBlanks_append hb []
  rw [List.append_nil] at hskip
  rw [Json.parse?, List.append_assoc, parseValue_congr (skipBlanks_append ha _), ← List.append_assoc, hvalue]
  simp only [hskip]
  rfl

/-! ## The form in which values are written -/

theorem blanks_nil : Blanks [] := nofun

theorem written_renderElements {v : Json} {vs : List Json} (h : ∀ w ∈ v :: vs, Written (.value w) w.render) :
    Written (.elements (v :: vs)) (v.render ++ renderElements vs) := by
  induction vs generalizing v with
  | nil =>
    rw [renderElements]
    simpa using Written.lastElement blanks_nil (h v List.mem_cons_self) blanks_nil
  | cons w vs ih =>
    obtain ⟨hv, hvs⟩ := List.forall_mem_cons.1 h
    rw [renderElements]
    simpa using Written.element blanks_nil hv blanks_nil (ih hvs)

theorem written_render_array {vs : List Json} (h : ∀ v ∈ vs, Written (.value v) v.render) :
    Written (.value (.array vs)) (render (.array vs)) := by
  cases vs with
  | nil => exact .noElements blanks_nil
  | cons v vs =>
    rw [render]
    exact .array (written_renderElements h)

theorem written_renderMembers {k : List Char} {v : Json} {ms : List (List Char × Json)}
    (h : ∀ m ∈ (k, v) :: ms, Literal m.1 ∧ Written (.value m.2) m.2.render) :
    Written (.members ((k, v) :: ms)) ('"' :: k ++ '"' :: ':' :: v.render ++ renderMembers ms) := by
  induction ms generalizing k v with
  | nil =>
    obtain ⟨hk, hv⟩ := h _ List.mem_cons_self
    rw [renderMembers]
    simpa using Written.lastMember blanks_nil hk blanks_nil blanks_nil hv blanks_nil
  | cons m ms ih =>
    obtain ⟨⟨hk, hv⟩, hms⟩ := List.forall_mem_cons.1 h
    rw [renderMembers]
    simpa using Written.member blanks_nil hk blanks_nil blanks_nil hv blanks_nil (ih hms)

theorem written_render_object {ms : List (List Char × Json)}
    (h : ∀ m ∈ ms, Literal m.1 ∧ Written (.value m.2) m.2.render) :
    Written (.value (.object ms)) (render (.object ms)) := by
  match ms, h with
  | [], _ => exact .noMembers blanks_nil
  | (k, v) :: ms, h =>
    rw [render]
    exact .object (written_renderMembers h)

theorem Written.text {j : Json} (h : Written (.value j) cs) : Text j cs :=
  ⟨[], cs, [], blanks_nil, h, blanks_nil, by simp⟩

end VirtualMesh.Json

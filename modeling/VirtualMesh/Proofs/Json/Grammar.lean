import VirtualMesh.Json.Coded

/-!
# The grammar of JSON

What the texts of a value are, apart from any way to read them: numerals, literals, and values with blanks between
their parts. A literal spells a text if it is written out piece by piece. The form in which values are written is one
of their texts.
-/

namespace VirtualMesh.Json

/-! ## Numerals -/

structure Digits (ds : List Char) : Prop where
  ne_nil : ds ≠ []
  isDigit : ∀ d ∈ ds, d.isDigit = true

/-- The digits before the point, without a leading zero. -/
inductive Whole : List Char → Prop where
  | zero : Whole ['0']
  | digits {d : Char} {ds : List Char} : d ≠ '0' → Digits (d :: ds) → Whole (d :: ds)

inductive Fraction : List Char → Prop where
  | none : Fraction []
  | digits {ds : List Char} : Digits ds → Fraction ('.' :: ds)

inductive Exponent : List Char → Prop where
  | none : Exponent []
  | digits {mark : Char} {sign ds : List Char} : mark = 'e' ∨ mark = 'E' → sign = [] ∨ sign = ['+'] ∨ sign = ['-'] →
      Digits ds → Exponent (mark :: (sign ++ ds))

inductive Numeral : List Char → Prop where
  | unsigned {w f e : List Char} : Whole w → Fraction f → Exponent e → Numeral (w ++ f ++ e)
  | negative {w f e : List Char} : Whole w → Fraction f → Exponent e → Numeral ('-' :: (w ++ f ++ e))

/-! ## Literals -/

/-- A character that may stand for itself. -/
def IsPlain (c : Char) : Prop := 32 ≤ c.toNat ∧ c ≠ '"' ∧ c ≠ '\\'

instance : DecidablePred IsPlain := fun _ => inferInstanceAs (Decidable (_ ∧ _ ∧ _))

/-- The letters after a backslash, and the characters that they stand for. -/
def shortEscapes : List (Char × Char) :=
  [('"', '"'), ('\\', '\\'), ('/', '/'), ('b', Char.ofNat 8), ('f', Char.ofNat 12), ('n', Char.ofNat 10),
    ('r', Char.ofNat 13), ('t', Char.ofNat 9)]

/-- What may stand between quotes. -/
inductive Literal : List Char → Prop where
  | nil : Literal []
  | plain {c : Char} {raw : List Char} : IsPlain c → Literal raw → Literal (c :: raw)
  | escaped {e c : Char} {raw : List Char} : (e, c) ∈ shortEscapes → Literal raw → Literal ('\\' :: e :: raw)
  | unit {a b c d : Char} {u : Nat} {raw : List Char} : Hex.number? [a, b, c, d] = some u → Literal raw →
      Literal ('\\' :: 'u' :: a :: b :: c :: d :: raw)

/-- The second text, between quotes, spells the first one. -/
inductive Spelling : List Char → List Char → Prop where
  | nil : Spelling [] []
  | plain {c : Char} {cs raw : List Char} : IsPlain c → Spelling cs raw → Spelling (c :: cs) (c :: raw)
  | escaped {e c : Char} {cs raw : List Char} : (e, c) ∈ shortEscapes → Spelling cs raw →
      Spelling (c :: cs) ('\\' :: e :: raw)
  | unit {a b c d : Char} {u : Nat} {cs raw : List Char} : Hex.number? [a, b, c, d] = some u →
      u < 0xd800 ∨ 0xe000 ≤ u → Spelling cs raw →
      Spelling (Char.ofNat u :: cs) ('\\' :: 'u' :: a :: b :: c :: d :: raw)
  | pair {a b c d a' b' c' d' : Char} {u v : Nat} {cs raw : List Char} : Hex.number? [a, b, c, d] = some u →
      0xd800 ≤ u → u < 0xdc00 → Hex.number? [a', b', c', d'] = some v → 0xdc00 ≤ v → v < 0xe000 → Spelling cs raw →
      Spelling (Char.ofNat (0x10000 + (u - 0xd800) * 0x400 + (v - 0xdc00)) :: cs)
        ('\\' :: 'u' :: a :: b :: c :: d :: '\\' :: 'u' :: a' :: b' :: c' :: d' :: raw)

/-! ## Values -/

def Blanks (cs : List Char) : Prop := ∀ c ∈ cs, c = ' ' ∨ c = '\t' ∨ c = '\n' ∨ c = '\r'

instance : DecidablePred Blanks := fun cs => List.decidableBAll _ cs

/-- What a part of a text is the text of: a value, or the rest of an array or object from a first element or member on
to the end. -/
inductive Phrase where
  | value (j : Json)
  | elements (vs : List Json)
  | members (ms : List (List Char × Json))

inductive Written : Phrase → List Char → Prop where
  | null : Written (.value .null) ['n', 'u', 'l', 'l']
  | isTrue : Written (.value (.bool true)) ['t', 'r', 'u', 'e']
  | isFalse : Written (.value (.bool false)) ['f', 'a', 'l', 's', 'e']
  | number {text : List Char} : Numeral text → Written (.value (.number text)) text
  | string {raw : List Char} : Literal raw → Written (.value (.string raw)) ('"' :: raw ++ ['"'])
  | noElements {b : List Char} : Blanks b → Written (.value (.array [])) ('[' :: b ++ [']'])
  | array {vs : List Json} {cs : List Char} : Written (.elements vs) cs → Written (.value (.array vs)) ('[' :: cs)
  | noMembers {b : List Char} : Blanks b → Written (.value (.object [])) ('{' :: b ++ ['}'])
  | object {ms : List (List Char × Json)} {cs : List Char} : Written (.members ms) cs →
      Written (.value (.object ms)) ('{' :: cs)
  | lastElement {v : Json} {a cs b : List Char} : Blanks a → Written (.value v) cs → Blanks b →
      Written (.elements [v]) (a ++ cs ++ b ++ [']'])
  | element {v : Json} {vs : List Json} {a cs b rest : List Char} : Blanks a → Written (.value v) cs → Blanks b →
      Written (.elements vs) rest → Written (.elements (v :: vs)) (a ++ cs ++ b ++ ',' :: rest)
  | lastMember {k a b c cs d : List Char} {v : Json} : Blanks a → Literal k → Blanks b → Blanks c →
      Written (.value v) cs → Blanks d →
      Written (.members [(k, v)]) (a ++ '"' :: k ++ '"' :: b ++ ':' :: c ++ cs ++ d ++ ['}'])
  | member {k a b c cs d rest : List Char} {v : Json} {ms : List (List Char × Json)} : Blanks a → Literal k →
      Blanks b → Blanks c → Written (.value v) cs → Blanks d → Written (.members ms) rest →
      Written (.members ((k, v) :: ms)) (a ++ '"' :: k ++ '"' :: b ++ ':' :: c ++ cs ++ d ++ ',' :: rest)

/-- A value with blanks around it. -/
def Text (j : Json) (cs : List Char) : Prop :=
  ∃ a t b, Blanks a ∧ Written (.value j) t ∧ Blanks b ∧ cs = a ++ t ++ b

end VirtualMesh.Json

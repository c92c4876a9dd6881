import VirtualMesh.Bytes

/-!
# Peer addresses

Every peer of a run has an address of its own: a 128-bit identifier, written in the usual groups
of 8, 4, 4, 4 and 12 hexadecimal digits. Addresses are ordered by their bytes.
-/

namespace VirtualMesh

structure Address where
  number : Nat
  lt : number < 2 ^ 128 := by decide

namespace Address

@[ext]
theorem ext {a b : Address} (h : a.number = b.number) : a = b := by
  cases a; cases b; cases h; rfl

instance : DecidableEq Address := fun a b =>
  if h : a.number = b.number then .isTrue (ext h) else .isFalse fun hab => h (hab ▸ rfl)

def ofNumber? (n : Nat) : Option Address :=
  if h : n < 2 ^ 128 then some ⟨n, h⟩ else none

/-- The address of sixteen bytes. -/
def ofBytes? (bs : Bytes) : Option Address :=
  if bs.length = 16 then ofNumber? (BigEndian.decode bs) else none

/-- The `n`-th fresh address: version 4 and the standard variant, counted in the free low bits. -/
def fresh (n : Nat) : Address :=
  ⟨(4 * 2 ^ 76 + 2 * 2 ^ 62) + n % 2 ^ 62, by have := Nat.mod_lt n (show 2 ^ 62 > 0 by decide); omega⟩

theorem fresh_inj {m n : Nat} (hm : m < 2 ^ 62) (hn : n < 2 ^ 62) : fresh m = fresh n ↔ m = n := by
  constructor
  · intro h
    have h' := congrArg number h
    simp only [fresh] at h'
    omega
  · rintro rfl; rfl

/-- The version digit of the identifier. -/
def version (a : Address) : Nat := a.number / 2 ^ 76 % 16

def network : List Char := ['i', 'p', 'c']

def compare (a b : Address) : Ordering := Ord.compare a.number b.number

/-- The digits of the identifier in its five groups. -/
def hyphenated (a : Address) : List Char :=
  let ds := Hex.padded 32 a.number
  ds.take 8 ++ '-' :: (ds.drop 8).take 4 ++ '-' :: (ds.drop 12).take 4 ++ '-' :: (ds.drop 16).take 4 ++
    '-' :: ds.drop 20

def text (a : Address) : List Char := network ++ [':', '/', '/'] ++ a.hyphenated

/-- The digits of the hyphenated form, or `none` if a hyphen is out of place. -/
def joinGroups (cs : List Char) : Option (List Char) :=
  match cs.drop 8, cs.drop 13, cs.drop 18, cs.drop 23 with
  | '-' :: _, '-' :: _, '-' :: _, '-' :: last =>
    some (cs.take 8 ++ (cs.drop 9).take 4 ++ (cs.drop 14).take 4 ++ (cs.drop 19).take 4 ++ last)
  | _, _, _, _ => none

def ofHyphenated? (cs : List Char) : Option Address :=
  if cs.length = 36 then do
    let n ← Hex.number? (← joinGroups cs)
    ofNumber? n
  else none

def urn : List Char := ['u', 'r', 'n', ':', 'u', 'u', 'i', 'd', ':']

/-- Reads 32 digits in a row, or the hyphenated form, which may stand in braces or follow the
name of its address space. Digits and name may have either case. -/
def ofText? (cs : List Char) : Option Address :=
  if cs.length = 32 then (Hex.number? cs).bind ofNumber?
  else if cs.length = 38 && cs.head? = some '{' && cs.getLast? = some '}' then
    ofHyphenated? (cs.drop 1).dropLast
  else if (cs.take 9).map Char.toLower = urn then ofHyphenated? (cs.drop 9)
  else ofHyphenated? cs

end Address

end VirtualMesh

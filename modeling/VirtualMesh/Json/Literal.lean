import VirtualMesh.Bytes
import VirtualMesh.Json.Basic

/-!
# String literals

The text between the quotes of a JSON string is a list of pieces: characters that stand for
themselves, escaped characters, and 16-bit code units. A literal is read as text, as bytes, or
not at all, and what is allowed in it differs.
-/

namespace VirtualMesh.Json

inductive Piece where
  /-- Stands for itself. -/
  | plain (c : Char)
  /-- Written with a backslash and a letter. -/
  | escaped (c : Char)
  /-- Written with a backslash, `u` and four hexadecimal digits. -/
  | unit (u : Nat)

/-- The character that a letter after a backslash stands for. -/
def unescape? : Char → Option Char
  | '"' => some '"'
  | '\\' => some '\\'
  | '/' => some '/'
  | 'b' => some (Char.ofNat 8)
  | 'f' => some (Char.ofNat 12)
  | 'n' => some (Char.ofNat 10)
  | 'r' => some (Char.ofNat 13)
  | 't' => some (Char.ofNat 9)
  | _ => none

/-- The pieces of a literal, if every backslash starts an escape. -/
def pieces? : List Char → Option (List Piece)
  | [] => some []
  | '\\' :: 'u' :: a :: b :: c :: d :: rest => do
    let u ← Hex.number? [a, b, c, d]
    return .unit u :: (← pieces? rest)
  | '\\' :: e :: rest => do
    let c ← unescape? e
    return .escaped c :: (← pieces? rest)
  | ['\\'] => none
  | c :: rest => do return .plain c :: (← pieces? rest)

def isControl (c : Char) : Bool := c.toNat < 32

/-- The first half of a surrogate pair. -/
def isHigh (u : Nat) : Bool := 0xd800 ≤ u && u < 0xdc00

/-- The second half of a surrogate pair. -/
def isLow (u : Nat) : Bool := 0xdc00 ≤ u && u < 0xe000

/-- The code point of a surrogate pair. -/
def pairValue (high low : Nat) : Nat := 0x10000 + (high - 0xd800) * 1024 + (low - 0xdc00)

/-- Reads pieces as text: control characters are escaped, and surrogates come in pairs. -/
def text? : List Piece → Option (List Char)
  | [] => some []
  | .plain c :: rest => do
    if isControl c then none
    return c :: (← text? rest)
  | .escaped c :: rest => do return c :: (← text? rest)
  | .unit u :: .unit v :: rest =>
    if isHigh u then
      if isLow v then do return Char.ofNat (pairValue u v) :: (← text? rest) else none
    else if isLow u then none
    else do return Char.ofNat u :: (← text? (.unit v :: rest))
  | .unit u :: rest =>
    if isHigh u || isLow u then none else do return Char.ofNat u :: (← text? rest)

/-- The bytes of a code point, by the rule of UTF-8, which extends to lone surrogates. -/
def codeBytes (n : Nat) : Bytes :=
  if n < 0x80 then [UInt8.ofNat n]
  else if n < 0x800 then [UInt8.ofNat (0xc0 + n / 64), UInt8.ofNat (0x80 + n % 64)]
  else if n < 0x10000 then
    [UInt8.ofNat (0xe0 + n / 4096), UInt8.ofNat (0x80 + n / 64 % 64), UInt8.ofNat (0x80 + n % 64)]
  else
    [UInt8.ofNat (0xf0 + n / 262144), UInt8.ofNat (0x80 + n / 4096 % 64),
      UInt8.ofNat (0x80 + n / 64 % 64), UInt8.ofNat (0x80 + n % 64)]

/-- Reads pieces as bytes, where nothing is refused. -/
def bytes : List Piece → Bytes
  | [] => []
  | .plain c :: rest => codeBytes c.toNat ++ bytes rest
  | .escaped c :: rest => codeBytes c.toNat ++ bytes rest
  | .unit u :: .unit v :: rest =>
    if isHigh u && isLow v then codeBytes (pairValue u v) ++ bytes rest
    else codeBytes u ++ bytes (.unit v :: rest)
  | .unit u :: rest => codeBytes u ++ bytes rest

def Piece.isSkippable : Piece → Bool
  | .plain c => !isControl c
  | _ => true

def literalText? (raw : List Char) : Option (List Char) := (pieces? raw).bind text?

def literalBytes? (raw : List Char) : Option Bytes := (pieces? raw).map bytes

/-- Whether a literal may stand where nobody reads it: control characters are escaped. -/
def isSkippable (raw : List Char) : Bool :=
  match pieces? raw with
  | some ps => ps.all Piece.isSkippable
  | none => false

/-- A character as it is written in a literal. -/
def escape (c : Char) : List Char :=
  if c = '"' then ['\\', '"']
  else if c = '\\' then ['\\', '\\']
  else if c.toNat = 8 then ['\\', 'b']
  else if c.toNat = 9 then ['\\', 't']
  else if c.toNat = 10 then ['\\', 'n']
  else if c.toNat = 12 then ['\\', 'f']
  else if c.toNat = 13 then ['\\', 'r']
  else if isControl c then '\\' :: 'u' :: Hex.padded 4 c.toNat
  else [c]

def ofText (cs : List Char) : Json := .string (cs.flatMap escape)

mutual

/-- Whether a value may stand where nobody reads it. -/
def skippable : Json → Bool
  | .string raw => isSkippable raw
  | .array vs => skippableElements vs
  | .object ms => skippableMembers ms
  | _ => true

def skippableElements : List Json → Bool
  | [] => true
  | v :: vs => skippable v && skippableElements vs

def skippableMembers : List (List Char × Json) → Bool
  | [] => true
  | (k, v) :: ms => isSkippable k && skippable v && skippableMembers ms

end

end VirtualMesh.Json

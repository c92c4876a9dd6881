import VirtualMesh.Json.Basic

/-!
# Reading JSON text

One value with blanks around it. Numbers and string literals are only delimited here; whether a
literal is well formed is decided where it is read.
-/

namespace VirtualMesh.Json

def isBlank (c : Char) : Bool := c = ' ' || c = '\t' || c = '\n' || c = '\r'

def skipBlanks (cs : List Char) : List Char := cs.dropWhile isBlank

/-- The literal up to its closing quote, and what follows the quote. -/
def scanLiteral : List Char → Option (List Char × List Char)
  | [] => none
  | '"' :: rest => some ([], rest)
  | '\\' :: c :: rest => (scanLiteral rest).map fun (raw, rest) => ('\\' :: c :: raw, rest)
  | c :: rest => (scanLiteral rest).map fun (raw, rest) => (c :: raw, rest)

/-- At least one digit. -/
def scanDigits (cs : List Char) : Option (List Char × List Char) :=
  match cs.takeWhile Char.isDigit with
  | [] => none
  | ds => some (ds, cs.dropWhile Char.isDigit)

/-- The digits before the point: a zero, or digits that do not start with one. -/
def scanWhole : List Char → Option (List Char × List Char)
  | '0' :: rest => some (['0'], rest)
  | cs => scanDigits cs

def scanFraction : List Char → Option (List Char × List Char)
  | '.' :: rest => (scanDigits rest).map fun (ds, rest) => ('.' :: ds, rest)
  | cs => some ([], cs)

def isExponentMark (c : Char) : Bool := c = 'e' || c = 'E'

def isSign (c : Char) : Bool := c = '+' || c = '-'

def scanExponent : List Char → Option (List Char × List Char)
  | m :: s :: rest =>
    if isExponentMark m then
      if isSign s then (scanDigits rest).map fun (ds, rest) => (m :: s :: ds, rest)
      else (scanDigits (s :: rest)).map fun (ds, rest) => (m :: ds, rest)
    else some ([], m :: s :: rest)
  | [m] => if isExponentMark m then none else some ([], [m])
  | [] => some ([], [])

def scanUnsigned (cs : List Char) : Option (List Char × List Char) := do
  let (whole, cs) ← scanWhole cs
  let (fraction, cs) ← scanFraction cs
  let (exponent, cs) ← scanExponent cs
  return (whole ++ fraction ++ exponent, cs)

def scanNumber : List Char → Option (List Char × List Char)
  | '-' :: rest => (scanUnsigned rest).map fun (text, rest) => ('-' :: text, rest)
  | cs => scanUnsigned cs

/-- A quoted literal and the colon after it. -/
def scanKey (cs : List Char) : Option (List Char × List Char) :=
  match skipBlanks cs with
  | '"' :: rest => do
    let (key, rest) ← scanLiteral rest
    match skipBlanks rest with
    | ':' :: rest => return (key, rest)
    | _ => none
  | _ => none

mutual

/-- One value in front, and what follows it. Each call may make calls `depth` levels deep. -/
def parseValue : (depth : Nat) → List Char → Option (Json × List Char)
  | 0, _ => none
  | depth + 1, cs =>
    match skipBlanks cs with
    | 'n' :: 'u' :: 'l' :: 'l' :: rest => some (.null, rest)
    | 't' :: 'r' :: 'u' :: 'e' :: rest => some (.bool true, rest)
    | 'f' :: 'a' :: 'l' :: 's' :: 'e' :: rest => some (.bool false, rest)
    | '"' :: rest => (scanLiteral rest).map fun (raw, rest) => (.string raw, rest)
    | '[' :: rest =>
      match skipBlanks rest with
      | ']' :: rest => some (.array [], rest)
      | rest => (parseElements depth rest).map fun (vs, rest) => (.array vs, rest)
    | '{' :: rest =>
      match skipBlanks rest with
      | '}' :: rest => some (.object [], rest)
      | rest => (parseMembers depth rest).map fun (ms, rest) => (.object ms, rest)
    | cs => (scanNumber cs).map fun (text, rest) => (.number text, rest)

/-- The elements of an array from the first one on, to its end. -/
def parseElements : (depth : Nat) → List Char → Option (List Json × List Char)
  | 0, _ => none
  | depth + 1, cs => do
    let (v, cs) ← parseValue depth cs
    match skipBlanks cs with
    | ']' :: rest => return ([v], rest)
    | ',' :: rest =>
      let (vs, rest) ← parseElements depth rest
      return (v :: vs, rest)
    | _ => none

/-- The members of an object from the first one on, to its end. -/
def parseMembers : (depth : Nat) → List Char → Option (List (List Char × Json) × List Char)
  | 0, _ => none
  | depth + 1, cs => do
    let (key, cs) ← scanKey cs
    let (v, cs) ← parseValue depth cs
    match skipBlanks cs with
    | '}' :: rest => return ([(key, v)], rest)
    | ',' :: rest =>
      let (ms, rest) ← parseMembers depth rest
      return ((key, v) :: ms, rest)
    | _ => none

end

/-- The value that a text is. Calls go at most two levels deeper for one character. -/
def parse? (cs : List Char) : Option Json :=
  match parseValue (2 * cs.length + 1) cs with
  | some (v, rest) => if skipBlanks rest = [] then some v else none
  | none => none

end VirtualMesh.Json

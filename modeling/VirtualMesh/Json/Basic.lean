/-!
# JSON values

A value keeps its numbers and strings as they are written: a number is its text, and a string is
the text between its quotes, with all escapes in place. How they are read depends on what is
expected there.
-/

namespace VirtualMesh

inductive Json where
  | null
  | bool (b : Bool)
  | number (text : List Char)
  | string (raw : List Char)
  | array (elements : List Json)
  | object (members : List (List Char × Json))

namespace Json

mutual

def render : Json → List Char
  | .null => ['n', 'u', 'l', 'l']
  | .bool true => ['t', 'r', 'u', 'e']
  | .bool false => ['f', 'a', 'l', 's', 'e']
  | .number text => text
  | .string raw => '"' :: raw ++ ['"']
  | .array [] => ['[', ']']
  | .array (v :: vs) => '[' :: render v ++ renderElements vs
  | .object [] => ['{', '}']
  | .object ((k, v) :: ms) => '{' :: '"' :: k ++ '"' :: ':' :: render v ++ renderMembers ms

/-- The further elements of an array, each after a comma, and the end of it. -/
def renderElements : List Json → List Char
  | [] => [']']
  | v :: vs => ',' :: render v ++ renderElements vs

/-- The further members of an object, each after a comma, and the end of it. -/
def renderMembers : List (List Char × Json) → List Char
  | [] => ['}']
  | (k, v) :: ms => ',' :: '"' :: k ++ '"' :: ':' :: render v ++ renderMembers ms

end

end Json

end VirtualMesh

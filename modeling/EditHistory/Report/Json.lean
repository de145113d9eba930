/-! JSON values and their two written forms: on one line without blanks, and on many lines with
two blanks for every level. Members of an object stand in the order of their names. -/
namespace EditHistory

inductive Json where
  | null
  | bool (b : Bool)
  | num (n : Nat)
  | str (s : String)
  | arr (items : List Json)
  | obj (members : List (String × Json))

namespace Json

/-- An object whose members are brought into the order of their names. -/
def object (members : List (String × Json)) : Json :=
  .obj (members.mergeSort fun x y => x.1 ≤ y.1)

def hexDigit (n : Nat) : Char := if n < 10 then Char.ofNat (48 + n) else Char.ofNat (87 + n)

/-- A character of a string. Quotes, backslashes and control characters are escaped. -/
def escape (c : Char) : List Char :=
  if c = '"' then ['\\', '"']
  else if c = '\\' then ['\\', '\\']
  else if c.toNat = 8 then ['\\', 'b']
  else if c.toNat = 9 then ['\\', 't']
  else if c.toNat = 10 then ['\\', 'n']
  else if c.toNat = 12 then ['\\', 'f']
  else if c.toNat = 13 then ['\\', 'r']
  else if c.toNat < 32 then ['\\', 'u', '0', '0', hexDigit (c.toNat / 16), hexDigit (c.toNat % 16)]
  else [c]

def quote (s : String) : List Char := '"' :: s.toList.flatMap escape ++ ['"']

def word (s : String) : List Char := s.toList

/-- The form of values without parts. -/
def scalar : Json → List Char
  | .null => word "null"
  | .bool b => word (if b then "true" else "false")
  | .num n => word (toString n)
  | .str s => quote s
  | .arr _ | .obj _ => []

mutual

/-- The form on one line. -/
def compact : Json → List Char
  | .arr items => '[' :: compactItems items ++ [']']
  | .obj members => '\x7b' :: compactMembers members ++ ['\x7d']
  | .null => scalar .null
  | .bool b => scalar (.bool b)
  | .num n => scalar (.num n)
  | .str s => scalar (.str s)

def compactItems : List Json → List Char
  | [] => []
  | [j] => j.compact
  | j :: k :: rest => j.compact ++ ',' :: compactItems (k :: rest)

def compactMembers : List (String × Json) → List Char
  | [] => []
  | [(name, j)] => quote name ++ ':' :: j.compact
  | (name, j) :: m :: rest => quote name ++ ':' :: j.compact ++ ',' :: compactMembers (m :: rest)

end

/-- The start of a line at a level. -/
def newline (level : Nat) : List Char := '\n' :: List.replicate (2 * level) ' '

mutual

/-- The form on many lines, inside `level` levels. -/
def pretty (level : Nat) : Json → List Char
  | .arr [] => ['[', ']']
  | .arr (j :: rest) => '[' :: prettyItems (level + 1) (j :: rest) ++ newline level ++ [']']
  | .obj [] => ['\x7b', '\x7d']
  | .obj (m :: rest) =>
    '\x7b' :: prettyMembers (level + 1) (m :: rest) ++ newline level ++ ['\x7d']
  | .null => scalar .null
  | .bool b => scalar (.bool b)
  | .num n => scalar (.num n)
  | .str s => scalar (.str s)

def prettyItems (level : Nat) : List Json → List Char
  | [] => []
  | [j] => newline level ++ j.pretty level
  | j :: k :: rest => newline level ++ j.pretty level ++ ',' :: prettyItems level (k :: rest)

def prettyMembers (level : Nat) : List (String × Json) → List Char
  | [] => []
  | [(name, j)] => newline level ++ quote name ++ ':' :: ' ' :: j.pretty level
  | (name, j) :: m :: rest =>
    newline level ++ quote name ++ ':' :: ' ' :: j.pretty level ++ ',' :: prettyMembers level (m :: rest)

end

def line (j : Json) : String := String.ofList j.compact

def page (j : Json) : String := String.ofList (j.pretty 0)

end Json
end EditHistory

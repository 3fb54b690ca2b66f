import IndexSync.Json.Basic

/-!
# Writing JSON

`Json.compact` writes a document on one line without blanks, `Json.pretty` with
one member or element per line, indented by two spaces.
-/

namespace IndexSync

def JsonNumber.render : JsonNumber → String
  | integer n => toString n
  | real x => x.render

namespace Json

/-- The two hexadecimal digits of a control character. -/
def hexPair (n : Nat) : List Char :=
  [Nat.digitChar (n / 16), Nat.digitChar (n % 16)]

/-- A character inside a string: quotes, backslashes and control characters are
escaped, and all else stands for itself. -/
def escape (c : Char) : List Char :=
  match c with
  | '"' => ['\\', '"']
  | '\\' => ['\\', '\\']
  | '\n' => ['\\', 'n']
  | '\r' => ['\\', 'r']
  | '\t' => ['\\', 't']
  | _ =>
    if c.toNat = 8 then ['\\', 'b']
    else if c.toNat = 12 then ['\\', 'f']
    else if c.toNat < 32 then ['\\', 'u', '0', '0'] ++ hexPair c.toNat
    else [c]

/-- A string between quotes. -/
def quoted (s : String) : String :=
  String.ofList ('"' :: s.toList.flatMap escape ++ ['"'])

/-- One line; what cannot be held is written as null. -/
def compact : Json → String
  | null | beyond => "null"
  | bool true => "true"
  | bool false => "false"
  | number n => n.render
  | string s => quoted s
  | array items => "[" ++ ",".intercalate (compactAll items) ++ "]"
  | object members => "\x7b" ++ ",".intercalate (compactMembers members) ++ "\x7d"
where
  compactAll : List Json → List String
    | [] => []
    | j :: rest => j.compact :: compactAll rest
  compactMembers : List (String × Json) → List String
    | [] => []
    | (name, j) :: rest => (quoted name ++ ":" ++ j.compact) :: compactMembers rest

/-- Lines between brackets, indented below `level` enclosing ones. -/
def block (level : Nat) (left right : String) (lines : List String) : String :=
  if lines.isEmpty then left ++ right
  else
    let indent (level : Nat) := String.join (List.replicate level "  ")
    left ++ "\n" ++ ",\n".intercalate (lines.map (indent (level + 1) ++ ·)) ++ "\n" ++
      indent level ++ right

def prettyAt (level : Nat) : Json → String
  | array items => block level "[" "]" (prettyAll level items)
  | object members => block level "\x7b" "\x7d" (prettyMembers level members)
  | j => j.compact
where
  prettyAll (level : Nat) : List Json → List String
    | [] => []
    | j :: rest => j.prettyAt (level + 1) :: prettyAll level rest
  prettyMembers (level : Nat) : List (String × Json) → List String
    | [] => []
    | (name, j) :: rest =>
      (quoted name ++ ": " ++ j.prettyAt (level + 1)) :: prettyMembers level rest

def pretty (j : Json) : String := j.prettyAt 0

end Json

end IndexSync

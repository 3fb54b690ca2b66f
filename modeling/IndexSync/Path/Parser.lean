import IndexSync.Path.Basic
import IndexSync.Text.Alphanumeric

/-!
# Reading paths

    path := part ('.' part)*
    part := name ('[' extractor? ']')* ('<' type '>')?

Nothing may stand between the tokens.  Reading fails at the first character
that does not fit, and the error tells how many bytes stand before it; an
unknown extractor is reported where its word starts.
-/

namespace IndexSync

/-- What was missing where reading stopped. -/
inductive PathFault where
  | propertyExpected
  | extractorExpected
  | typeExpected
  | unknownExtractor (word : String)
  | bracketExpected
  | angleExpected
  | dotExpected
deriving DecidableEq

def PathFault.message : PathFault → String
  | propertyExpected => "expected a property name"
  | extractorExpected => "expected a container kind"
  | typeExpected => "expected a type name"
  | unknownExtractor word => "unknown container kind '" ++ word ++ "'"
  | bracketExpected => "expected ']'"
  | angleExpected => "expected '>'"
  | dotExpected => "expected '.' or end of path"

/-- A fault and the number of bytes in front of it. -/
structure PathError where
  offset : Nat
  fault : PathFault
deriving DecidableEq

def PathError.message (e : PathError) : String :=
  e.fault.message ++ " at offset " ++ toString e.offset

namespace Path

open Text

/-- A fault together with the text that was left. -/
abbrev Stop := PathFault × List Char

/-- The leading name, and what follows it. -/
def takeName (missing : PathFault) (s : List Char) : Except Stop (String × List Char) :=
  let name := s.takeWhile isNameChar
  if name.isEmpty then .error (missing, s)
  else .ok (String.ofList name, s.dropWhile isNameChar)

/-- The inside of one pair of brackets, and what follows the closing one. -/
def takeExtractor (s : List Char) : Except Stop (Option Extractor × List Char) :=
  match s with
  | ']' :: s => .ok (none, s)
  | _ =>
    match takeName .extractorExpected s with
    | .error stop => .error stop
    | .ok (word, rest) =>
      match Extractor.ofWord? word with
      | none => .error (.unknownExtractor word, s)
      | some e =>
        match rest with
        | ']' :: rest => .ok (some e, rest)
        | _ => .error (.bracketExpected, rest)

/-- The bracketed extractors that come next, after those `found` already.  The
first argument bounds their number. -/
def takeExtractors : Nat → List (Option Extractor) → List Char →
    Except Stop (List (Option Extractor) × List Char)
  | bound + 1, found, '[' :: s =>
    match takeExtractor s with
    | .error stop => .error stop
    | .ok (e, rest) => takeExtractors bound (e :: found) rest
  | _, found, s => .ok (found.reverse, s)

/-- The cast that comes next, if there is one. -/
def takeCast (s : List Char) : Except Stop (Option TypeName × List Char) :=
  match s with
  | '<' :: s =>
    match takeName .typeExpected s with
    | .error stop => .error stop
    | .ok (type, '>' :: rest) => .ok (some type, rest)
    | .ok (_, rest) => .error (.angleExpected, rest)
  | _ => .ok (none, s)

def takePart (s : List Char) : Except Stop (PathPart × List Char) := do
  let (property, s) ← takeName .propertyExpected s
  let (extractors, s) ← takeExtractors s.length [] s
  let (cast, s) ← takeCast s
  return ({ property, extractors, cast }, s)

/-- All parts up to the end of the text, after those `found` already.  The
first argument bounds their number. -/
def takeParts : Nat → List PathPart → List Char → Except Stop (List PathPart)
  | 0, _, s => .error (.propertyExpected, s)
  | bound + 1, found, s =>
    match takePart s with
    | .error stop => .error stop
    | .ok (part, []) => .ok (part :: found).reverse
    | .ok (part, '.' :: rest) => takeParts bound (part :: found) rest
    | .ok (_, rest) => .error (.dotExpected, rest)

/-- Number of bytes that a text takes. -/
def byteLength : List Char → Nat
  | [] => 0
  | c :: rest => c.utf8Size + byteLength rest

/-- Reads a whole text. -/
def parse (text : String) : Except PathError Path :=
  let s := text.toList
  match takeParts (s.length + 1) [] s with
  | .ok parts => .ok { parts }
  | .error (fault, rest) => .error { offset := byteLength s - byteLength rest, fault }

end Path

end IndexSync

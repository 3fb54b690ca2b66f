import IndexSync.Json.Basic

/-!
# Reading JSON

`Json.parse?` reads a whole text by the letter of the standard: no trailing
commas, no leading zeros, no control characters in strings.  What is well formed
but cannot be held is read as `beyond`; whether that matters depends on what the
document is read for.

The number of characters bounds every loop: each round takes at least one.
-/

namespace IndexSync.Json

/-- Drops blanks. -/
def skip (s : List Char) : List Char :=
  s.dropWhile fun c => c = ' ' || c = '\n' || c = '\t' || c = '\r'

/-! ## Numbers -/

def digitValue (c : Char) : Nat := c.toNat - '0'.toNat

/-- The digits of a number as far as they fit into 64 bits, and how many digits
came after that. -/
structure Significand where
  value : Nat
  dropped : Nat

/-- One more digit.  Once a digit did not fit, none is taken any more. -/
def Significand.push (s : Significand) (c : Char) : Significand :=
  let value := s.value * 10 + digitValue c
  if s.dropped = 0 ∧ value < UInt64.size then { s with value }
  else { s with dropped := s.dropped + 1 }

/-- The exponent that comes next, if there is one; nothing if it has no
digits. -/
def takeExponent? (s : List Char) : Option (Int × List Char) :=
  match s with
  | 'e' :: rest | 'E' :: rest =>
    let (negative, rest) := match rest with
      | '+' :: rest => (false, rest)
      | '-' :: rest => (true, rest)
      | rest => (false, rest)
    let digits := rest.takeWhile Char.isDigit
    let size : Int := digits.foldl (fun n c => n * 10 + Int.ofNat (digitValue c)) 0
    if digits.isEmpty then none
    else some (if negative then -size else size, rest.dropWhile Char.isDigit)
  | _ => some (0, s)

/-- A double with its sign. -/
def realNumber (negative : Bool) (significand : Nat) (exponent : Int) : Json :=
  match Double.ofParts significand exponent with
  | none => beyond
  | some x => number (.real (if negative then x.negate else x))

/-- A number without point and exponent.  A negative one is an integer if it
fits into 63 bits and is not zero. -/
def plainNumber (negative : Bool) (s : Significand) : Json :=
  if s.dropped = 0 ∧ !negative then nat s.value
  else if s.dropped = 0 ∧ 0 < s.value ∧ s.value ≤ UInt64.size / 2 then integer (-Int.ofNat s.value)
  else realNumber negative s.value (Int.ofNat s.dropped)

/-- The number after its sign. -/
def takeMagnitude? (negative : Bool) (s : List Char) : Option (Json × List Char) :=
  let digits := s.takeWhile Char.isDigit
  let rest := s.dropWhile Char.isDigit
  if digits.isEmpty ∨ (digits.head? = some '0' ∧ 1 < digits.length) then none
  else
    let whole := digits.foldl Significand.push { value := 0, dropped := 0 }
    match rest with
    | '.' :: rest =>
      let decimals := rest.takeWhile Char.isDigit
      if decimals.isEmpty then none
      else
        let start : Significand := { value := whole.value, dropped := 0 }
        let all := decimals.foldl Significand.push start
        let taken := decimals.length - all.dropped
        match takeExponent? (rest.dropWhile Char.isDigit) with
        | none => none
        | some (exponent, rest) =>
          some (realNumber negative all.value
            (Int.ofNat whole.dropped - Int.ofNat taken + exponent), rest)
    | 'e' :: _ | 'E' :: _ =>
      match takeExponent? rest with
      | none => none
      | some (exponent, rest) =>
        some (realNumber negative whole.value (Int.ofNat whole.dropped + exponent), rest)
    | _ => some (plainNumber negative whole, rest)

def takeNumber? (s : List Char) : Option (Json × List Char) :=
  match s with
  | '-' :: rest => takeMagnitude? true rest
  | _ => takeMagnitude? false s

/-! ## Strings -/

def hexValue? (c : Char) : Option Nat :=
  if c.isDigit then some (digitValue c)
  else if 'a' ≤ c ∧ c ≤ 'f' then some (c.toNat - 'a'.toNat + 10)
  else if 'A' ≤ c ∧ c ≤ 'F' then some (c.toNat - 'A'.toNat + 10)
  else none

/-- Four hexadecimal digits. -/
def takeHex? : List Char → Option (Nat × List Char)
  | a :: b :: c :: d :: rest => do
    let a ← hexValue? a
    let b ← hexValue? b
    let c ← hexValue? c
    let d ← hexValue? d
    return (((a * 16 + b) * 16 + c) * 16 + d, rest)
  | _ => none

/-- The character of a `\u` escape, whose digits come next.  Half of a surrogate
pair is no character unless the other half follows. -/
def takeUnicode? (s : List Char) : Option (Option Char × List Char) := do
  let (unit, rest) ← takeHex? s
  if 0xDC00 ≤ unit ∧ unit ≤ 0xDFFF then return (none, rest)
  else if 0xD800 ≤ unit ∧ unit ≤ 0xDBFF then
    match rest with
    | '\\' :: 'u' :: digits =>
      let (low, after) ← takeHex? digits
      if 0xDC00 ≤ low ∧ low ≤ 0xDFFF then
        return (some (Char.ofNat (0x10000 + (unit - 0xD800) * 0x400 + (low - 0xDC00))), after)
      else return (none, rest)
    | _ => return (none, rest)
  else return (some (Char.ofNat unit), rest)

/-- The character of an escape, after its backslash. -/
def takeEscape? : List Char → Option (Option Char × List Char)
  | '"' :: rest => some ('"', rest)
  | '\\' :: rest => some ('\\', rest)
  | '/' :: rest => some ('/', rest)
  | 'b' :: rest => some (Char.ofNat 8, rest)
  | 'f' :: rest => some (Char.ofNat 12, rest)
  | 'n' :: rest => some ('\n', rest)
  | 'r' :: rest => some ('\r', rest)
  | 't' :: rest => some ('\t', rest)
  | 'u' :: rest => takeUnicode? rest
  | _ => none

/-- The rest of a string after its opening quote, given the characters so far,
latest first; no text if one of them is none. -/
def takeString? : Nat → Option (List Char) → List Char → Option (Option String × List Char)
  | 0, _, _ => none
  | bound + 1, found, s =>
    match s with
    | '"' :: rest => some (found.map fun cs => String.ofList cs.reverse, rest)
    | '\\' :: rest =>
      match takeEscape? rest with
      | none => none
      | some (c, rest) => takeString? bound (do return (← c) :: (← found)) rest
    | c :: rest =>
      if c.toNat < 32 then none else takeString? bound (found.map (c :: ·)) rest
    | [] => none

/-! ## Documents -/

/-- A string with its quotes. -/
def takeQuoted? (bound : Nat) (s : List Char) : Option (Option String × List Char) :=
  match s with
  | '"' :: rest => takeString? bound (some []) rest
  | _ => none

mutual

/-- One value off the front of the text. -/
def takeValue? : Nat → List Char → Option (Json × List Char)
  | 0, _ => none
  | bound + 1, s =>
    match skip s with
    | 'n' :: 'u' :: 'l' :: 'l' :: rest => some (null, rest)
    | 't' :: 'r' :: 'u' :: 'e' :: rest => some (bool true, rest)
    | 'f' :: 'a' :: 'l' :: 's' :: 'e' :: rest => some (bool false, rest)
    | '"' :: rest =>
      (takeQuoted? bound ('"' :: rest)).map fun (text, rest) =>
        ((text.map string).getD beyond, rest)
    | '[' :: rest =>
      match skip rest with
      | ']' :: rest => some (array [], rest)
      | rest => takeItems? bound [] rest
    | '{' :: rest =>
      match skip rest with
      | '}' :: rest => some (object [], rest)
      | rest => takeMembers? bound (some []) rest
    | rest => takeNumber? rest

/-- The elements of an array up to its closing bracket. -/
def takeItems? : Nat → List Json → List Char → Option (Json × List Char)
  | 0, _, _ => none
  | bound + 1, found, s =>
    match takeValue? bound s with
    | none => none
    | some (item, rest) =>
      match skip rest with
      | ',' :: rest => takeItems? bound (item :: found) rest
      | ']' :: rest => some (array (item :: found).reverse, rest)
      | _ => none

/-- The members of an object up to its closing brace, given those so far, latest
first; no object if one of their names is no text. -/
def takeMembers? : Nat → Option (List (String × Json)) → List Char → Option (Json × List Char)
  | 0, _, _ => none
  | bound + 1, found, s =>
    match takeQuoted? bound (skip s) with
    | none => none
    | some (name, rest) =>
      match skip rest with
      | ':' :: rest =>
        match takeValue? bound rest with
        | none => none
        | some (value, rest) =>
          let found := do return (← name, value) :: (← found)
          match skip rest with
          | ',' :: rest => takeMembers? bound found rest
          | '}' :: rest =>
            some ((found.map fun members => object members.reverse).getD beyond, rest)
          | _ => none
      | _ => none

end

/-- Reads a whole text. -/
def parse? (text : String) : Option Json :=
  let s := text.toList
  match takeValue? (s.length + 1) s with
  | some (j, rest) => if (skip rest).isEmpty then some j else none
  | none => none

end IndexSync.Json

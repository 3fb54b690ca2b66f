/-!
# Options on a command line

A command line is a list of words.  Options come as `--name value`,
`--name=value`, `-n value`, `-nvalue` or `-n=value`, several flags may share one
dash, and `--` ends the options.  A word that starts with a dash is never taken
for the value of the option before it.

A value in the word of its option is checked at once.  A value in a word of its
own is only put aside: it is checked when the next option comes, so that a
request for help further on can still be met before it.

- `readOptions` — the options up to the first word that is none, the last value
  perhaps still unchecked.
- `readAllOptions` — words that hold nothing but options, all values checked.
-/

namespace IndexSync.CommandLine

/-- What an option takes. -/
inductive OptionKind where
  | flag
  /-- Asks for the help text at once. -/
  | help
  /-- Asks for the version at once. -/
  | version
  | text
  /-- A text that is not empty. -/
  | path
  /-- A number below `2 ^ 64`. -/
  | number
  /-- Texts, which may be given more than once. -/
  | texts
deriving DecidableEq

structure OptionSpec where
  name : String
  short : Option Char
  kind : OptionKind

/-- Why reading ends early. -/
inductive Stop where
  /-- The words make no command. -/
  | usage
  | help
  | version
deriving DecidableEq

/-- The options given so far, with their values. -/
abbrev Given := List (String × String)

/-- A number, which may have a plus sign in front. -/
def number? (value : String) : Option Nat :=
  let digits := match value.toList with
    | '+' :: rest => rest
    | all => all
  if digits.isEmpty || !digits.all Char.isDigit then none
  else
    let n := digits.foldl (fun n c => n * 10 + (c.toNat - '0'.toNat)) 0
    if n < UInt64.size then some n else none

namespace OptionSpec

def takesValue (o : OptionSpec) : Bool :=
  match o.kind with
  | .flag | .help | .version => false
  | .text | .path | .number | .texts => true

def admits (o : OptionSpec) (value : String) : Bool :=
  match o.kind with
  | .path => !value.isEmpty
  | .number => (number? value).isSome
  | _ => true

/-- Takes an option with its value, unless it was given before. -/
def accept (o : OptionSpec) (given : Given) (value : String) : Except Stop Given :=
  if given.any (·.1 = o.name) && o.kind ≠ .texts then .error .usage
  else if !o.admits value then .error .usage
  else
    match o.kind with
    | .help => .error .help
    | .version => .error .version
    | _ => .ok (given ++ [(o.name, value)])

end OptionSpec

/-- Options read so far; `waiting` is the last one with its value, if that is
still unchecked. -/
structure Reading where
  given : Given
  waiting : Option (OptionSpec × String)

namespace Reading

def empty : Reading := { given := [], waiting := none }

/-- Checks the value that waits. -/
def settle (r : Reading) : Except Stop Given :=
  match r.waiting with
  | none => .ok r.given
  | some (o, value) => o.accept r.given value

/-- Takes an option with its value at once. -/
def accept (r : Reading) (o : OptionSpec) (value : String) : Except Stop Reading := do
  return { given := ← o.accept (← r.settle) value, waiting := none }

/-- Takes an option whose value waits. -/
def hold (r : Reading) (o : OptionSpec) (value : String) : Except Stop Reading := do
  return { given := ← r.settle, waiting := some (o, value) }

end Reading

/-- One word by its looks. -/
inductive Word where
  | stop
  | long (name : String) (value : Option String)
  | shorts (letters : List Char)
  | plain
deriving DecidableEq

def classify (word : String) : Word :=
  match word.toList with
  | ['-', '-'] => .stop
  | '-' :: '-' :: rest =>
    match rest.dropWhile (· ≠ '=') with
    | '=' :: value => .long (String.ofList (rest.takeWhile (· ≠ '='))) (some (String.ofList value))
    | _ => .long (String.ofList rest) none
  | '-' :: c :: rest => .shorts (c :: rest)
  | _ => .plain

variable (specs : List OptionSpec)

/-- Letters behind one dash.  An option that takes a value takes the rest of the
word; if nothing is left it is handed back, to take the next word. -/
def readShorts (r : Reading) : List Char → Except Stop (Reading × Option OptionSpec)
  | [] => .ok (r, none)
  | c :: rest =>
    match specs.find? fun o => o.short = some c with
    | none => .error .usage
    | some o =>
      if o.takesValue then
        match rest with
        | [] => .ok (r, some o)
        | '=' :: value => do return (← r.accept o (String.ofList value), none)
        | value => do return (← r.accept o (String.ofList value), none)
      else do readShorts (← r.accept o "") rest

/-- Options up to the first word that is none, and the words from there on. -/
def readOptions : Reading → List String → Except Stop (Reading × List String)
  | r, [] => .ok (r, [])
  | r, word :: rest => do
    /- An option still without value takes the next word. -/
    let withNext (r : Reading) (o : OptionSpec) : Except Stop (Reading × List String) :=
      match rest with
      | value :: rest =>
        if classify value = .plain then do readOptions (← r.hold o value) rest
        else .error .usage
      | [] => .error .usage
    match classify word with
    | .stop => if rest.isEmpty then return (r, []) else .error .usage
    | .plain => return (r, word :: rest)
    | .long name value =>
      match specs.find? fun o => o.name = name with
      | none => .error .usage
      | some o =>
        match o.takesValue, value with
        | true, some value => readOptions (← r.accept o value) rest
        | true, none => withNext r o
        | false, some _ => .error .usage
        | false, none => readOptions (← r.accept o "") rest
    | .shorts letters =>
      match ← readShorts specs r letters with
      | (r, none) => readOptions r rest
      | (r, some o) => withNext r o

/-- Words that hold nothing but options. -/
def readAllOptions (words : List String) : Except Stop Given := do
  match ← readOptions specs .empty words with
  | (r, []) => r.settle
  | (_, _ :: _) => .error .usage

end IndexSync.CommandLine

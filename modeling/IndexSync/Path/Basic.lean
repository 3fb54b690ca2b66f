import IndexSync.DataError

/-!
# Paths

A path leads from an object to values: it names properties one after another,
says how containers on the way are opened, and may narrow what it reaches to a
subtype.

- `Path.render` — the only way of writing a path.
- `Path.names` — the bare property names joined by dots, the form in
  which changed properties are reported.
-/

namespace IndexSync

/-- One property of a path.  Empty brackets mean the usual extractor of whatever
container is met. -/
structure PathPart where
  property : String
  extractors : List (Option Extractor)
  cast : Option TypeName
deriving DecidableEq, Inhabited

structure Path where
  parts : List PathPart
deriving DecidableEq, Inhabited

/-- Names joined by dots. -/
def dotted (names : List String) : String :=
  ".".intercalate names

namespace PathPart

def renderExtractor : Option Extractor → String
  | some e => "[" ++ e.word ++ "]"
  | none => "[]"

def renderCast : Option TypeName → String
  | some type => "<" ++ type ++ ">"
  | none => ""

def render (p : PathPart) : String :=
  p.property ++ String.join (p.extractors.map renderExtractor) ++ renderCast p.cast

end PathPart

namespace Path

def render (p : Path) : String :=
  dotted (p.parts.map (·.render))

def names (p : Path) : String :=
  dotted (p.parts.map (·.property))

end Path

end IndexSync

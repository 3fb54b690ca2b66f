import IndexSync.DataError

/-!
# Property types

The declared type of a property: a scalar, a reference to objects of a named
type, or a container nested to any depth.

- `PropertyType.render` — the written form, such as `map<text, list<Order>>`.
- `PropertyType.element?` — the type of what an extractor takes out.
- `PropertyType.usualExtractor?` — the extractor meant where none is named.
-/

namespace IndexSync

inductive Scalar where
  | bool
  | integer
  | text
  | bytes
deriving DecidableEq, Inhabited

namespace Scalar

def all : List Scalar := [bool, integer, text, bytes]

def word : Scalar → String
  | bool => "bool"
  | integer => "integer"
  | text => "text"
  | bytes => "bytes"

def ofWord? (word : String) : Option Scalar :=
  all.find? fun kind => kind.word = word

end Scalar

/-- Declared type of a property value. -/
inductive PropertyType where
  | scalar (kind : Scalar)
  | object (name : TypeName)
  | list (element : PropertyType)
  | set (element : PropertyType)
  | array (element : PropertyType)
  | optional (element : PropertyType)
  | map (key value : PropertyType)
deriving DecidableEq, Inhabited

namespace PropertyType

def render : PropertyType → String
  | scalar kind => kind.word
  | object name => name
  | list e => "list<" ++ e.render ++ ">"
  | set e => "set<" ++ e.render ++ ">"
  | array e => "array<" ++ e.render ++ ">"
  | optional e => "optional<" ++ e.render ++ ">"
  | map k v => "map<" ++ k.render ++ ", " ++ v.render ++ ">"

def isContainer : PropertyType → Bool
  | scalar _ | object _ => false
  | _ => true

/-- The named type, if the values are references. -/
def target? : PropertyType → Option TypeName
  | object name => some name
  | _ => none

/-- The extractor meant where none is named: the values of a map, the
elements of anything else. -/
def usualExtractor? : PropertyType → Option Extractor
  | list _ => some .list
  | set _ => some .set
  | array _ => some .array
  | optional _ => some .optional
  | map _ _ => some .mapValues
  | scalar _ | object _ => none

/-- The type of what an extractor takes out of values of this type. -/
def element? : PropertyType → Extractor → Option PropertyType
  | list e, .list => some e
  | set e, .set => some e
  | array e, .array => some e
  | optional e, .optional => some e
  | map _ v, .mapValues => some v
  | map k _, .mapKeys => some k
  | _, _ => none

end PropertyType

end IndexSync

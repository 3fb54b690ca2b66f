import IndexSync.Value.Extractor

/-!
# Errors of types and objects

Each constructor is one cause; `DataError.message` is its wording.
-/

namespace IndexSync

/-- Types are known by name. -/
abbrev TypeName := String

/-- Why a text is no property type. -/
inductive PropertyTypeFault where
  | nameExpected
  | expected (c : Char)
  | notContainer (name : String)
  | trailing (rest : String)
deriving DecidableEq

def PropertyTypeFault.message : PropertyTypeFault → String
  | nameExpected => "expected a type name"
  | expected c => "expected '" ++ c.toString ++ "'"
  | notContainer name => "'" ++ name ++ "' is not a container type"
  | trailing rest => "unexpected trailing input '" ++ rest ++ "'"

/-- What can go wrong while types are declared and objects are read or
written. -/
inductive DataError where
  | unknownType (name : TypeName)
  | unknownProperty (type : TypeName) (property : String)
  | unknownObject (id : ObjectId)
  | duplicateType (name : TypeName)
  | duplicateProperty (type : TypeName) (property : String)
  | inheritanceCycle (name : TypeName)
  | malformedType (text : String) (fault : PropertyTypeFault)
  /-- The container asked for, and the shape of the value that was found. -/
  | wrongContainer (expected : Extractor) (found : String)
  | notReference (found : String)
  | abstractType (name : TypeName)
  | duplicateObject (id : ObjectId)
deriving DecidableEq

def DataError.message : DataError → String
  | unknownType name => "unknown type: " ++ name
  | unknownProperty type property => "type " ++ type ++ " has no property '" ++ property ++ "'"
  | unknownObject id => "no object with id " ++ id.text
  | duplicateType name => "type " ++ name ++ " is declared more than once"
  | duplicateProperty type property =>
    "property '" ++ property ++ "' is declared more than once on " ++ type
  | inheritanceCycle name => "inheritance cycle through type " ++ name
  | malformedType text fault => "invalid value type '" ++ text ++ "': " ++ fault.message
  | wrongContainer expected found =>
    "cannot extract " ++ expected.word ++ " elements from a " ++ found ++ " value"
  | notReference found => "expected an object reference, found a " ++ found ++ " value"
  | abstractType name => "type " ++ name ++ " is abstract"
  | duplicateObject id => "object " ++ id.text ++ " already exists"

/-- The elements of a container value, or the mismatch as an error. -/
def Extractor.elements (e : Extractor) (value : Value) : Except DataError (List Value) :=
  match e.elements? value with
  | some items => .ok items
  | none => .error (.wrongContainer e value.shape)

end IndexSync

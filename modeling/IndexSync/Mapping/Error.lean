import IndexSync.Path.Parser
import IndexSync.Path.Elaborate

/-!
# Errors of a mapping

`MappingError` holds what a start or a request can find wrong with the
declarations, `SyncError` everything that a request can fail with.  A
*configuration error* is one that only a change of the declarations can mend.
-/

namespace IndexSync

/-- Why a path of a declaration was rejected. -/
inductive PathReason where
  | syntaxError (e : PathError)
  | misfit (e : PathMisfit)
  /-- An association that has to be walked back has no inverse side. -/
  | noInverse (owner : TypeName) (names : String)
  /-- An inverse path goes through another entity. -/
  | crossesEntity (path : Path) (entity : TypeName)
  /-- An inverse path ends at a type that has nothing to do with the required
  one. -/
  | leadsElsewhere (path : Path) (reached required : TypeName)
  /-- The inverse side belongs to a type that has nothing to do with the
  association's target. -/
  | unrelatedSide (owner : TypeName) (path : Path) (target : TypeName)
deriving DecidableEq

def PathReason.message : PathReason → String
  | syntaxError e => e.message
  | misfit e => e.message
  | noInverse owner names => "no inverse side declared for " ++ owner ++ "." ++ names
  | crossesEntity path entity =>
    "inverse path '" ++ path.render ++ "' crosses entity " ++ entity ++ " before its end"
  | leadsElsewhere path reached required =>
    "inverse path '" ++ path.render ++ "' leads to " ++ reached ++ ", unrelated to " ++ required
  | unrelatedSide owner path target =>
    "inverse side " ++ owner ++ "." ++ path.render ++ " is declared on a type unrelated to " ++
      target

/-- What only an entity can be. -/
inductive EntityRole where
  | indexed
  | dependent
  | source
  | changed
deriving DecidableEq

def EntityRole.text : EntityRole → String
  | indexed => "indexed"
  | dependent => "the target of an other-entity dependency"
  | source => "the source of an other-entity dependency"
  | changed => "the source of a change"

inductive MappingError where
  | invalidPath (owner : TypeName) (path : String) (reason : PathReason)
  | unknownType (name : TypeName)
  | notAnEntity (name : TypeName) (role : EntityRole)
  | invalidInverse (owner : TypeName) (names : String) (reason : PathReason)
  /-- Two different inverse sides, each as its owner and path. -/
  | contradictoryInverse (owner : TypeName) (names : String) (first second : TypeName × Path)
  /-- The embeddables that embed one another, outermost first. -/
  | recursiveEmbedding (chain : List TypeName)
deriving DecidableEq

def MappingError.message : MappingError → String
  | invalidPath owner path reason =>
    "invalid path '" ++ path ++ "' on " ++ owner ++ ": " ++ reason.message
  | unknownType name => "unknown type in mapping: " ++ name
  | notAnEntity name role =>
    "type " ++ name ++ " cannot be " ++ role.text ++ ": it is not an entity"
  | invalidInverse owner names reason =>
    "invalid inverse side for " ++ owner ++ "." ++ names ++ ": " ++ reason.message
  | contradictoryInverse owner names first second =>
    "contradictory inverse sides for " ++ owner ++ "." ++ names ++ ": " ++
      first.1 ++ "." ++ first.2.render ++ " and " ++ second.1 ++ "." ++ second.2.render
  | recursiveEmbedding chain =>
    "recursive embedding of embeddable types: " ++ " -> ".intercalate chain

/-- What a compiled tree relies on and a store can break. -/
inductive Violation where
  | danglingNode (node : Nat)
  | pending (node : Nat)
  | extractorOnObject (e : Extractor) (node : Nat)
  | unexpectedType (object : ObjectId) (found expected : TypeName)
  | forwardReference (type : TypeName)
  /-- A walk that used up its steps, which no walk does. -/
  | endless
deriving DecidableEq

/-- Nodes are numbered from zero. -/
def nodeLabel (node : Nat) : String :=
  "n" ++ toString node

def Violation.message : Violation → String
  | danglingNode node => "dangling node " ++ nodeLabel node
  | pending node => "unresolved placeholder node " ++ nodeLabel node
  | extractorOnObject e node =>
    e.word ++ " extractor " ++ nodeLabel node ++ " reached an object instead of a value"
  | unexpectedType object found expected =>
    "object " ++ object.text ++ " of type " ++ found ++ " found where " ++ expected ++
      " was expected"
  | forwardReference type => "resolver tree for " ++ type ++ " kept a forward reference"
  | endless => "the walk did not end"

inductive SyncError where
  | data (e : DataError)
  | mapping (e : MappingError)
  | invariant (v : Violation)
deriving DecidableEq

namespace SyncError

def message : SyncError → String
  | data e => "model error: " ++ e.message
  | mapping e => e.message
  | invariant v => "invariant violation: " ++ v.message

/-- Whether the declarations are to blame. -/
def isConfiguration : SyncError → Bool
  | mapping _ => true
  | _ => false

end SyncError

end IndexSync

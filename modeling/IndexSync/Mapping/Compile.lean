import IndexSync.Mapping.Segment

/-!
# Compiling a mapping

`Mapping.compile` checks the declarations against the schema and reduces them
to triggers and embedding edges.  Everything that can be wrong with a mapping is
found here.

- `readFacts`, `embedFacts`, `dependencyFacts` — the facts of one declaration.
- `partFacts` — the facts of one entity type, with the declarations of
  embeddables inlined where they are embedded.
- `saturate` — the types whose document part matters: the indexed ones, and
  every type that a document of such a type embeds.
- `Mapping` — the facts that can reach a document, and these types.
-/

namespace IndexSync

/-! ## Checks on declared types -/

def checkPart (m : Schema) (d : PartDecl) : Except MappingError Unit := do
  requireDeclared m d.name
  if d.indexed && !m.isEntity d.name then .error (.notAnEntity d.name .indexed)
  else if !d.other.isEmpty && !m.isEntity d.name then .error (.notAnEntity d.name .dependent)
  else
    d.other.forM fun o => do
      requireDeclared m o.type
      if m.isEntity o.type then .ok () else .error (.notAnEntity o.type .source)

/-! ## Facts of a type -/

/-- A path below the path that an embeddable is embedded at. -/
def below (place path : String) : String :=
  if place.isEmpty then path else place ++ "." ++ path

section

variable (m : Schema) (ds : Declarations) (t : InverseTable) (root : TypeName)

/-- The facts of a path that is read below `place`. -/
def readFacts (place path : String) : Except MappingError Facts := do
  let text := below place path
  let steps ← elaborateText m root text .anything
  return .ofTriggers (← segments m t root text steps false []).1

/-- The declarations that are inlined where an embeddable of type `target` is
embedded. -/
def inlinedInto (target : TypeName) : List PartDecl :=
  ds.types.filter fun d => !m.isEntity d.name && m.fits target d.name

/-- The facts of a path that is embedded below `place`.  An entity keeps its own
document part; the declarations of an embeddable are inlined by `inline`. -/
def embedFacts (inline : (place : String) → (inside : List TypeName) → PartDecl →
    Except MappingError Facts) (place : String) (inside : List TypeName) (path : String) :
    Except MappingError Facts := do
  let text := below place path
  let steps ← elaborateText m root text .objects
  let target := endOf root steps
  if m.isEntity target then
    let (triggers, chain) ← segments m t root text steps true []
    return { triggers, embeddings := [{ target, chain, landing := chainEnd chain root }] }
  else
    let (triggers, _) ← segments m t root text steps false []
    -- the path itself is refused first, and only then the embeddable in itself
    if target ∈ inside then .error (.recursiveEmbedding (root :: inside ++ [target]))
    else
      return .ofTriggers triggers ++
        (← Facts.collect (inlinedInto m ds target) (inline text (inside ++ [target])))

/-- The way from the other entity of a dependency to the declaring type. -/
def dependencyLink (o : Dependency) : Except MappingError Backlink := do
  let path ← parsePath o.type o.inversePath
  (backlinkTo m o.type path root none).mapError (.invalidPath o.type o.inversePath)

/-- The facts of a path that is used on the other entity of a dependency, from which
`link` leads to the declaring type. -/
def usedFacts (o : Dependency) (link : Backlink) (path : String) : Except MappingError Facts := do
  let steps ← elaborateText m o.type path .anything
  return .ofTriggers (← segments m t o.type path steps false [link]).1

/-- The facts of a dependency on another entity. -/
def dependencyFacts (o : Dependency) : Except MappingError Facts := do
  let link ← dependencyLink m root o
  let used ← Facts.collect o.used (usedFacts m t o link)
  return .ofTriggers [.along o.type link.names [link]] ++ used

/-- The facts that follow from `d`, either the root's own declarations or those
of an embeddable inlined at `place`.  `inside` lists the embeddables being
inlined, outermost first; an embeddable inside itself is refused, so the first
argument, which bounds their number, never runs out. -/
def partFacts :
    Nat → (place : String) → (inside : List TypeName) → PartDecl → Except MappingError Facts
  | 0, _, inside, _ => .error (.recursiveEmbedding (root :: inside))
  | depth + 1, place, inside, d => do
    let read ← Facts.collect d.read (readFacts m t root place)
    let embed ← Facts.collect d.embed (embedFacts m ds t root (partFacts depth) place inside)
    let other ← Facts.collect d.other (dependencyFacts m t root)
    return read ++ embed ++ other

end

/-! ## Types with a document part -/

/-- The concrete types of the schema, in declaration order. -/
def Schema.concretes (m : Schema) : List TypeName :=
  m.typeNames.filter fun name => !m.isAbstract name

/-- The concrete types that fit a type, itself first if it is concrete. -/
def Schema.concretesUnder (m : Schema) (name : TypeName) : List TypeName :=
  if m.declares name then (name :: m.subtypes name).filter fun t => !m.isAbstract t else []

/-- Whether some concrete type that fits `type` is among `documents`. -/
def leadsToPart (m : Schema) (documents : List TypeName) (type : TypeName) : Bool :=
  (m.concretesUnder type).any fun c => c ∈ documents

/-- One round: the concrete types that are among `documents`, or are embedded
by a type that is. -/
def saturateStep (m : Schema) (embeddings : List Embedding) (documents : List TypeName) :
    List TypeName :=
  let embedded := (embeddings.filter fun e => leadsToPart m documents e.landing).flatMap fun e =>
    m.concretesUnder e.target
  m.concretes.filter fun c => c ∈ documents || c ∈ embedded

/-- Rounds until one adds nothing, at most as many as there are concrete
types. -/
def saturate (m : Schema) (embeddings : List Embedding) (indexed : List TypeName) :
    List TypeName :=
  go m.concretes.length indexed
where
  go : Nat → List TypeName → List TypeName
    | 0, documents => documents
    | rounds + 1, documents =>
      let more := saturateStep m embeddings documents
      if more = documents then documents else go rounds more

/-! ## The mapping -/

/-- What the declarations over `schema` amount to. -/
structure Mapping (schema : Schema) where
  triggers : List Trigger
  embeddings : List Embedding
  /-- Concrete types that have a document, in declaration order. -/
  indexed : List TypeName
  /-- Concrete types whose document part matters to some document. -/
  documents : List TypeName
deriving DecidableEq

namespace Mapping

/-- All facts of the declarations, before any is left out. -/
def facts (m : Schema) (ds : Declarations) : Except MappingError Facts := do
  ds.types.forM (checkPart m)
  let table ← InverseTable.register m ds.inverses
  Facts.collect (ds.types.filter fun d => m.isEntity d.name) fun d =>
    partFacts m ds table d.name (m.size + 1) "" [] d

/-- The concrete types that are declared as indexed, themselves or through a
supertype. -/
def indexedConcretes (m : Schema) (ds : Declarations) : List TypeName :=
  m.concretes.filter fun c => ds.types.any fun d => d.indexed && m.fits c d.name

/-- The mapping made of all facts: each trigger counts once, and what cannot
reach a document is left out. -/
def ofFacts (m : Schema) (indexed : List TypeName) (facts : Facts) : Mapping m :=
  let documents := saturate m facts.embeddings indexed
  { triggers := facts.triggers.eraseDups.filter fun t => leadsToPart m documents t.landing
    embeddings := facts.embeddings.filter fun e => leadsToPart m documents e.landing
    indexed
    documents }

/-- Checks and compiles declarations. -/
def compile (m : Schema) (ds : Declarations) : Except MappingError (Mapping m) := do
  return ofFacts m (indexedConcretes m ds) (← facts m ds)

variable {schema : Schema}

/-- Objects of exactly this type have a document. -/
def isIndexed (mapping : Mapping schema) (type : TypeName) : Bool :=
  type ∈ mapping.indexed

/-- A change of an object of exactly this type can reach some document. -/
def hasPart (mapping : Mapping schema) (type : TypeName) : Bool :=
  type ∈ mapping.documents

end Mapping

end IndexSync

import IndexSync.Sample.Couple

/-!
# Traders

Types that inherit from two others.  Firms are parties with an identifier and a label of
their own.

- `Sample.traders` — a trader is a person and a firm, and both of these are parties.
- `Sample.agents` — an agent is a firm, and a guest besides, which nothing else is.
-/

namespace IndexSync.Sample

def party : TypeDef :=
  (TypeDef.entity "Party").withId "code" (.scalar .text)
    |>.withProperty "label" (.scalar .text)

def firm : TypeDef :=
  ((TypeDef.entity "Firm").extending "Party").withId "register" (.scalar .integer)
    |>.withProperty "label" (.scalar .integer)

def traders : List TypeDef := [
  ((TypeDef.entity "Trader").extending "Person").extending "Firm",
  (TypeDef.entity "Person").extending "Party",
  firm,
  party]

def tradersSchema : Schema :=
  (Schema.ofDefinitions traders).value (by decide +kernel)

/-- One trader, with a value for either identifier. -/
def traded : ObjectStore tradersSchema :=
  ((create "Trader" [("code", .text "C"), ("register", .integer 7)]).run
    (.empty tradersSchema)).value (by decide +kernel) |>.2

def agents : List TypeDef := [
  ((TypeDef.entity "Agent").extending "Firm").extending "Guest",
  (TypeDef.entity "Guest").withProperty "room" (.scalar .integer),
  firm,
  party]

def agentsSchema : Schema :=
  (Schema.ofDefinitions agents).value (by decide +kernel)

end IndexSync.Sample

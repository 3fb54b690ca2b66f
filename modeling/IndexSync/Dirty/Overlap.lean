/-!
# Overlapping property paths

Two property paths overlap when one of them lies on the way to the other: they
are equal, or the longer goes on with a dot where the shorter ends.
-/

namespace IndexSync

/-- `long` begins with `short`, and then ends or goes on with a dot. -/
def continues : (short long : List Char) → Bool
  | [], [] => true
  | [], c :: _ => c = '.'
  | _ :: _, [] => false
  | c :: short, d :: long => c = d && continues short long

/-- One of the paths lies on the way to the other. -/
def overlap (a b : String) : Bool :=
  continues a.toList b.toList || continues b.toList a.toList

end IndexSync

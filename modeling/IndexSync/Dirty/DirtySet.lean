import IndexSync.SortedMap
import IndexSync.Dirty.Overlap

/-!
# Dirty paths

The property paths that are known to have changed on one object, in order and
without repetition.
-/

namespace IndexSync

/-- Property names joined by dots, relative to the changed object. -/
abbrev DirtySet := SortedSet String

namespace DirtySet

/-- Some dirty path overlaps the declared one. -/
def hits (d : DirtySet) (declared : String) : Bool :=
  d.toList.any fun p => overlap p declared

/-- The paths between braces. -/
def render (d : DirtySet) : String :=
  "\x7b" ++ ", ".intercalate d.toList ++ "\x7d"

end DirtySet

end IndexSync

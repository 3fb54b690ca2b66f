import IndexSync.Mapping.Backlink
import IndexSync.Dirty.OrdinalSet

/-!
# Merged moves

The sequences of moves of all triggers of a type, merged on what they have in
common at the front, so that a shared property is read once.  Every branch knows
the ordinals of the sequences that go through it, every fork the ordinals of
those that end there.

`Trie.ofSequences` enters the sequences one by one; a branch keeps the place of
the first sequence that needed it.
-/

namespace IndexSync

/-- The ordinals of the sequences that end here, if any does, and the branches
of those that go on: the move, the ordinals, and what follows. -/
inductive Trie where
  | fork (ended : Option OrdinalSet) (branches : List (Move × OrdinalSet × Trie))
deriving Inhabited

namespace Trie

def empty : Trie := fork none []

def ended : Trie → Option OrdinalSet
  | fork ended _ => ended

def branches : Trie → List (Move × OrdinalSet × Trie)
  | fork _ branches => branches

/-- Passes a sequence with ordinals `bits` through the branch of `move`, which is
made last if there is none yet; `grow` enters the rest of the sequence. -/
def through (move : Move) (bits : OrdinalSet) (grow : Trie → Trie) :
    List (Move × OrdinalSet × Trie) → List (Move × OrdinalSet × Trie)
  | [] => [(move, OrdinalSet.empty.union bits, grow empty)]
  | (o, known, next) :: rest =>
    if o = move then (o, known.union bits, grow next) :: rest
    else (o, known, next) :: through move bits grow rest

/-- Enters one sequence. -/
def insert (bits : OrdinalSet) : List Move → Trie → Trie
  | [], fork ended branches => fork (some ((ended.getD .empty).union bits)) branches
  | move :: moves, fork ended branches =>
    fork ended (through move bits (insert bits moves) branches)

/-- Enters sequences in order. -/
def ofSequences (sequences : List (List Move × OrdinalSet)) : Trie :=
  sequences.foldl (fun trie (moves, bits) => insert bits moves trie) empty

end Trie

end IndexSync

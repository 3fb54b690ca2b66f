import IndexSync.Proofs.Tree.Telling

/-!
# Lines of a text of a tree

- `Node.words` — what a text says of a node, with its place if it is a landmark.
- `Arena.entries` — the lines of a mention.
- `words_inj` — the words of a landmark tell which one it is, and whether it is pointed at.
- `Tells.count_words` — they stand in a text once for each mention of that kind.
-/

namespace IndexSync

/-! ## Lines -/

/-- What a text says of a node. -/
def Node.words (table : Option PathTable) (id : NodeId) (again : Bool) : Node → String
  | type static _ =>
    if again then "type " ++ static ++ " (see " ++ nodeLabel id ++ ")"
    else "type " ++ static ++ " [" ++ nodeLabel id ++ "]"
  | cast target _ => "cast to " ++ target
  | property name _ => "property " ++ name
  | extract e _ => "extract [" ++ e.word ++ "]"
  | union _ =>
    if again then "union (see " ++ nodeLabel id ++ ")" else "union [" ++ nodeLabel id ++ "]"
  | ifDirty relevant _ => "if dirty: " ++ Arena.renderRelevant table relevant
  | reindex => "reindex"
  | pending => "<placeholder " ++ nodeLabel id ++ ">"

/-- The line in front of a node that is told as the case of a concrete type. -/
def Reference.heading (r : Reference) : List (Nat × String) :=
  match r.concrete with
  | none => []
  | some c => [(r.level - 1, "when " ++ c ++ ":")]

/-! ## Places are told apart -/

theorem digits_append_inj {n n' : Nat} {more more' : List Char}
    (h : (Nat.toDigits 10 n).reverse ++ 'n' :: more =
      (Nat.toDigits 10 n').reverse ++ 'n' :: more') : n = n' := by
  have hdigits : ∀ (n : Nat) (more : List Char),
      ((Nat.toDigits 10 n).reverse ++ 'n' :: more).takeWhile Char.isDigit =
        (Nat.toDigits 10 n).reverse := by
    intro n more
    rw [List.takeWhile_append_of_pos, List.takeWhile_cons_of_neg (by decide), List.append_nil]
    exact fun c hc =>
      Nat.isDigit_of_mem_toDigits (by decide) (by decide) (List.mem_reverse.mp hc)
  have hreverse := congrArg (List.takeWhile Char.isDigit) h
  rw [hdigits, hdigits] at hreverse
  rw [← Nat.ofDigitChars_toDigits (b := 10) (n := n) (by decide) (by decide),
    List.reverse_inj.mp hreverse, Nat.ofDigitChars_toDigits (by decide) (by decide)]

/-- The words of a landmark end in its number, and in a bracket of one kind or the other. -/
theorem reverse_words (table : Option PathTable) {node : Node} (hlandmark : node.isLandmark = true)
    (id : NodeId) (again : Bool) :
    ∃ more, (node.words table id again).toList.reverse =
      (if again then ')' else ']') :: ((Nat.toDigits 10 id).reverse ++ 'n' :: more) := by
  cases node with
  | type static dispatch =>
      cases again with
      | false => exact ⟨" [".toList.reverse ++ ("type " ++ static).toList.reverse,
          by simp [Node.words, nodeLabel]⟩
      | true => exact ⟨" (see ".toList.reverse ++ ("type " ++ static).toList.reverse,
          by simp [Node.words, nodeLabel]⟩
  | union children =>
      cases again with
      | false => exact ⟨"union [".toList.reverse, by simp [Node.words, nodeLabel]⟩
      | true => exact ⟨"union (see ".toList.reverse, by simp [Node.words, nodeLabel]⟩
  | cast | property | extract | ifDirty | reindex | pending => cases hlandmark

/-- The words of landmarks begin with other letters than those of the other nodes. -/
theorem head_words (table : Option PathTable) (node : Node) (id : NodeId) (again : Bool) :
    (node.words table id again).toList.head? = some 't' ∨
      (node.words table id again).toList.head? = some 'u' ↔ node.isLandmark = true := by
  cases node <;> cases again <;> simp [Node.words, Node.isLandmark]

/-- Only what is pending begins with an angle bracket. -/
theorem head_words_ne (table : Option PathTable) {node : Node} (hnode : node ≠ .pending)
    (id : NodeId) (again : Bool) : (node.words table id again).toList.head? ≠ some '<' := by
  cases node <;> cases again <;> simp [Node.words] at hnode ⊢

theorem words_inj {table : Option PathTable} {node node' : Node} {id id' : NodeId}
    {again again' : Bool} (hlandmark : node.isLandmark = true)
    (h : node'.words table id' again' = node.words table id again) : id' = id ∧ again' = again := by
  have hhead := (head_words table node id again).mpr hlandmark
  rw [← h] at hhead
  have hlandmark' := (head_words table node' id' again').mp hhead
  obtain ⟨more, hmore⟩ := reverse_words table hlandmark id again
  obtain ⟨more', hmore'⟩ := reverse_words table hlandmark' id' again'
  rw [h] at hmore'
  obtain ⟨hclose, hrest⟩ := List.cons.inj (hmore'.symm.trans hmore)
  refine ⟨digits_append_inj hrest, ?_⟩
  cases again <;> cases again' <;> first | rfl | (simp at hclose)

theorem head_heading (r : Reference) :
    ∀ text ∈ r.heading.map (·.2), text.toList.head? = some 'w' := by
  intro text htext
  unfold Reference.heading at htext
  split at htext
  · cases htext
  · cases List.mem_singleton.mp htext
    simp

theorem words_not_mem_heading {table : Option PathTable} {r : Reference} {node : Node}
    {id : NodeId} {again : Bool} (hlandmark : node.isLandmark = true) :
    node.words table id again ∉ r.heading.map (·.2) := by
  intro hmem
  have hhead := (head_words table node id again).mpr hlandmark
  rw [head_heading r _ hmem] at hhead
  simp at hhead

/-! ## Lines of mentions -/

namespace Arena

variable {a : Arena} {table : Option PathTable}

/-- What a text says at a mention. -/
def wordsAt (a : Arena) (table : Option PathTable) (m : Mention) : String :=
  match a.get? m.node with
  | none => "<dangling " ++ nodeLabel m.node ++ ">"
  | some node => node.words table m.node m.again

/-- The lines of a mention, and how many levels enclose them. -/
def entries (a : Arena) (table : Option PathTable) (m : Mention) : List (Nat × String) :=
  m.heading ++ [(m.level, a.wordsAt table m)]

def lineOf (entry : Nat × String) : String :=
  line entry.1 entry.2

/-- The words of a landmark stand in a line for each time it is told, or pointed at. -/
theorem Tells.count_words {seen seen' : List NodeId} {ahead : List Reference}
    {mentions : List Mention} (h : a.Tells seen ahead mentions seen') {k : NodeId} {node : Node}
    (hnode : a.get? k = some node) (hlandmark : node.isLandmark = true) (again : Bool) :
    ((mentions.flatMap (a.entries table)).map (·.2)).count (node.words table k again) =
      mentions.countP fun m => m.node = k ∧ m.again = again := by
  have hone : ∀ m ∈ mentions, ((a.entries table m).map (·.2)).count (node.words table k again) =
      if m.node = k ∧ m.again = again then 1 else 0 := by
    intro m hm
    obtain ⟨node', hnode', -⟩ := h.of_mem hm
    rw [entries, List.map_append, List.count_append,
      List.count_eq_zero.mpr (words_not_mem_heading hlandmark), Nat.zero_add, List.map_singleton,
      List.count_singleton, wordsAt, hnode']
    by_cases hm : m.node = k ∧ m.again = again
    · obtain ⟨rfl, rfl⟩ := hm
      cases hnode'.symm.trans hnode
      simp
    · rw [if_neg hm, if_neg]
      exact fun heq => hm (words_inj hlandmark (eq_of_beq heq))
  clear h
  induction mentions with
  | nil => rfl
  | cons m mentions ih =>
      obtain ⟨hm, hrest⟩ := List.forall_mem_cons.mp hone
      rw [List.flatMap_cons, List.map_append, List.count_append, hm, ih hrest, List.countP_cons,
        Nat.add_comm]
      simp

end Arena

end IndexSync

import Mathlib.Computability.Language
import IndexSync.Proofs.Path.Written

/-!
# The grammar of paths

    path := part ('.' part)*
    part := name ('[' word? ']')* ('<' name '>')?

The texts that are read as paths are those of this grammar, and each is the only text of its
path.

- `Grammar.name`, `word`, `brackets`, `cast`, `part`, `path` — the grammar, rule by rule.
- `Grammar.mem_part_iff`, `mem_path_iff` — its texts are the written forms of plain paths.
- `parse_inverts_render` — reading accepts exactly these texts, and undoes writing.
-/

namespace IndexSync

open Text
open scoped Computability

namespace Path

namespace Grammar

/-! ## The rules -/

/-- Name characters, one at least. -/
def name : Language Char := {s | s ≠ [] ∧ ∀ c ∈ s, isNameChar c = true}

/-- The words of extractors. -/
def word : Language Char :=
  {s | String.ofList s ∈ ["list", "set", "array", "optional", "values", "keys"]}

/-- A pair of brackets, empty or with a word inside. -/
def brackets : Language Char := {['[']} * (1 + word) * {[']']}

/-- A name between angle brackets. -/
def cast : Language Char := {['<']} * name * {['>']}

def part : Language Char := name * brackets∗ * (1 + cast)

def path : Language Char := part * ({['.']} * part)∗

/-! ## What the rules generate -/

variable {s : List Char}

theorem mem_between_iff {l : Language Char} {first last : Char} :
    s ∈ ({[first]} : Language Char) * l * {[last]} ↔
      ∃ inner ∈ l, s = first :: (inner ++ [last]) := by
  constructor
  · intro h
    obtain ⟨front, hfront, _, rfl, rfl⟩ := Language.mem_mul.mp h
    obtain ⟨_, rfl, inner, hinner, rfl⟩ := Language.mem_mul.mp hfront
    exact ⟨inner, hinner, rfl⟩
  · rintro ⟨inner, hinner, rfl⟩
    exact Language.mem_mul.mpr ⟨first :: inner,
      Language.mem_mul.mpr ⟨[first], rfl, inner, hinner, rfl⟩, [last], rfl, rfl⟩

theorem mem_name_iff : s ∈ name ↔ ∃ n, IsName n ∧ s = n.toList := by
  constructor
  · rintro ⟨hne, hall⟩
    refine ⟨String.ofList s, ⟨?_, ?_⟩, String.toList_ofList.symm⟩
    · rwa [String.toList_ofList]
    · rw [String.toList_ofList]
      exact List.all_eq_true.mpr hall
  · rintro ⟨n, hn, rfl⟩
    exact ⟨hn.nonempty, hn.isNameChar⟩

theorem mem_word_iff : s ∈ word ↔ ∃ e : Extractor, s = e.word.toList := by
  constructor
  · intro h
    have hword : ∃ e : Extractor, String.ofList s = e.word := by
      simp only [word, List.mem_cons, List.not_mem_nil, or_false] at h
      rcases h with h | h | h | h | h | h
      exacts [⟨.list, h⟩, ⟨.set, h⟩, ⟨.array, h⟩, ⟨.optional, h⟩, ⟨.mapValues, h⟩, ⟨.mapKeys, h⟩]
    obtain ⟨e, he⟩ := hword
    exact ⟨e, by rw [← he, String.toList_ofList]⟩
  · rintro ⟨e, rfl⟩
    show String.ofList e.word.toList ∈ ["list", "set", "array", "optional", "values", "keys"]
    rw [String.ofList_toList]
    cases e <;> decide

theorem mem_brackets_iff : s ∈ brackets ↔ ∃ e?, s = (PathPart.renderExtractor e?).toList := by
  rw [brackets, mem_between_iff]
  constructor
  · rintro ⟨inner, hempty | hword, rfl⟩
    · cases (Language.mem_one inner).mp hempty
      exact ⟨none, rfl⟩
    · obtain ⟨e, rfl⟩ := mem_word_iff.mp hword
      exact ⟨some e, (toList_renderExtractor e).symm⟩
  · rintro ⟨e?, rfl⟩
    cases e? with
    | none => exact ⟨[], .inl rfl, rfl⟩
    | some e => exact ⟨e.word.toList, .inr (mem_word_iff.mpr ⟨e, rfl⟩), toList_renderExtractor e⟩

/-- Repeated texts of a rule, if the rule generates the written forms of something. -/
theorem mem_kstar_iff {α : Type} {l : Language Char} {p : α → Prop} {render : α → String}
    (h : ∀ {s}, s ∈ l ↔ ∃ a, p a ∧ s = (render a).toList) :
    s ∈ l∗ ↔ ∃ as : List α, (∀ a ∈ as, p a) ∧ s = (String.join (as.map render)).toList := by
  rw [Language.mem_kstar]
  constructor
  · rintro ⟨pieces, rfl, hpieces⟩
    induction pieces with
    | nil => exact ⟨[], nofun, rfl⟩
    | cons piece pieces ih =>
        obtain ⟨hpiece, hrest⟩ := List.forall_mem_cons.mp hpieces
        obtain ⟨a, ha, rfl⟩ := h.mp hpiece
        obtain ⟨as, has, heq⟩ := ih hrest
        refine ⟨a :: as, List.forall_mem_cons.mpr ⟨ha, has⟩, ?_⟩
        rw [List.flatten_cons, heq, List.map_cons, String.join_cons, String.toList_append]
  · rintro ⟨as, has, rfl⟩
    refine ⟨as.map fun a => (render a).toList, ?_, ?_⟩
    · rw [String.toList_join, List.flatMap_def, List.map_map]
      rfl
    · intro piece hpiece
      obtain ⟨a, ha, rfl⟩ := List.mem_map.mp hpiece
      exact h.mpr ⟨a, has a ha, rfl⟩

theorem mem_marks_iff : s ∈ brackets∗ ↔
    ∃ extractors : List (Option Extractor),
      s = (String.join (extractors.map PathPart.renderExtractor)).toList := by
  have hbrackets : ∀ {s}, s ∈ brackets ↔
      ∃ e?, True ∧ s = (PathPart.renderExtractor e?).toList := by
    simp only [true_and]
    exact mem_brackets_iff
  rw [mem_kstar_iff hbrackets]
  simp

theorem mem_cast_iff : s ∈ 1 + cast ↔
    ∃ c?, (∀ type ∈ c?, IsName type) ∧ s = (PathPart.renderCast c?).toList := by
  constructor
  · rintro (hempty | hcast)
    · cases (Language.mem_one s).mp hempty
      exact ⟨none, nofun, rfl⟩
    · obtain ⟨inner, hinner, rfl⟩ := mem_between_iff.mp hcast
      obtain ⟨type, htype, rfl⟩ := mem_name_iff.mp hinner
      refine ⟨some type, ?_, ?_⟩
      · rintro _ ⟨⟩
        exact htype
      · simpa using (toList_renderCast type []).symm
  · rintro ⟨c?, hname, rfl⟩
    cases c? with
    | none => exact .inl rfl
    | some type =>
        have hinner : type.toList ∈ name := mem_name_iff.mpr ⟨type, hname type rfl, rfl⟩
        refine .inr (mem_between_iff.mpr ⟨type.toList, hinner, ?_⟩)
        simpa using toList_renderCast type []

theorem mem_part_iff : s ∈ part ↔ ∃ p : PathPart, p.Plain ∧ s = p.render.toList := by
  constructor
  · intro h
    obtain ⟨front, hfront, rest, hrest, rfl⟩ := Language.mem_mul.mp h
    obtain ⟨first, hfirst, middle, hmiddle, rfl⟩ := Language.mem_mul.mp hfront
    obtain ⟨property, hproperty, rfl⟩ := mem_name_iff.mp hfirst
    obtain ⟨extractors, rfl⟩ := mem_marks_iff.mp hmiddle
    obtain ⟨cast, hcast, rfl⟩ := mem_cast_iff.mp hrest
    refine ⟨{ property, extractors, cast }, ⟨hproperty, hcast⟩, ?_⟩
    rw [PathPart.render, String.toList_append, String.toList_append]
  · rintro ⟨p, hp, rfl⟩
    have hfirst := mem_name_iff.mpr ⟨p.property, hp.property, rfl⟩
    have hmiddle := mem_marks_iff.mpr ⟨p.extractors, rfl⟩
    have hrest := mem_cast_iff.mpr ⟨p.cast, hp.cast, rfl⟩
    have hfront := Language.mem_mul.mpr ⟨_, hfirst, _, hmiddle, rfl⟩
    refine Language.mem_mul.mpr ⟨_, hfront, _, hrest, ?_⟩
    rw [PathPart.render, String.toList_append, String.toList_append]

/-- Joining the texts of parts is putting a dot in front of every one but the first. -/
theorem dotted_cons (text : String) (texts : List String) :
    dotted (text :: texts) = text ++ String.join (texts.map ("." ++ ·)) := by
  induction texts generalizing text with
  | nil => simp [dotted_singleton]
  | cons next texts ih =>
      rw [← String.toList_inj, toList_dotted_cons _ (List.cons_ne_nil _ _), ih]
      simp

theorem mem_path_iff : s ∈ path ↔ ∃ p : Path, p.Plain ∧ s = p.render.toList := by
  have hmore : ∀ {s}, s ∈ ({['.']} : Language Char) * part ↔
      ∃ p : PathPart, p.Plain ∧ s = ("." ++ p.render).toList := by
    intro s
    constructor
    · intro h
      obtain ⟨_, rfl, rest, hrest, rfl⟩ := Language.mem_mul.mp h
      obtain ⟨p, hp, rfl⟩ := mem_part_iff.mp hrest
      exact ⟨p, hp, by rw [String.toList_append]; rfl⟩
    · rintro ⟨p, hp, rfl⟩
      exact Language.mem_mul.mpr ⟨['.'], rfl, _, mem_part_iff.mpr ⟨p, hp, rfl⟩,
        by rw [String.toList_append]; rfl⟩
  constructor
  · intro h
    obtain ⟨front, hfront, rest, hrest, rfl⟩ := Language.mem_mul.mp h
    obtain ⟨first, hfirst, rfl⟩ := mem_part_iff.mp hfront
    obtain ⟨parts, hparts, rfl⟩ := (mem_kstar_iff hmore).mp hrest
    refine ⟨{ parts := first :: parts }, ⟨List.cons_ne_nil _ _, ?_⟩, ?_⟩
    · exact List.forall_mem_cons.mpr ⟨hfirst, hparts⟩
    · rw [render, List.map_cons, dotted_cons, List.map_map, String.toList_append]
      rfl
  · rintro ⟨⟨parts⟩, ⟨hne, hparts⟩, rfl⟩
    obtain ⟨first, rest, rfl⟩ := List.exists_cons_of_ne_nil hne
    obtain ⟨hfirst, hrest⟩ := List.forall_mem_cons.mp hparts
    refine Language.mem_mul.mpr ⟨_, mem_part_iff.mpr ⟨first, hfirst, rfl⟩, _,
      (mem_kstar_iff hmore).mpr ⟨rest, hrest, rfl⟩, ?_⟩
    rw [render, List.map_cons, dotted_cons, List.map_map, String.toList_append]
    rfl

end Grammar

/-! ## Reading and writing -/

/-- Reading accepts the texts of the grammar and no others.  What has been read is written as
the text that was read, so no two texts are read as the same path; and whatever can be written,
with a part at least and names of name characters, is read as what was written. -/
theorem parse_inverts_render :
    (∀ text, (∃ path, parse text = .ok path) ↔ text.toList ∈ Grammar.path) ∧
      (∀ text path, parse text = .ok path → path.render = text) ∧
      (∀ path : Path, path.parts ≠ [] →
        (∀ part ∈ path.parts, IsName part.property ∧ ∀ type ∈ part.cast, IsName type) →
        parse path.render = .ok path) ∧
      ∀ text text' path, parse text = .ok path → parse text' = .ok path → text = text' := by
  have hwritten : ∀ text path, parse text = .ok path → path.render = text :=
    fun _ _ h => (parse_eq_ok_iff.mp h).2.symm
  refine ⟨fun text => ?_, hwritten, fun path hne hnames => ?_, fun text text' path h h' => ?_⟩
  · rw [Grammar.mem_path_iff]
    constructor
    · rintro ⟨path, h⟩
      obtain ⟨hplain, rfl⟩ := parse_eq_ok_iff.mp h
      exact ⟨path, hplain, rfl⟩
    · rintro ⟨path, hplain, htext⟩
      exact ⟨path, parse_eq_ok_iff.mpr ⟨hplain, String.toList_inj.mp htext⟩⟩
  · have hparts : ∀ part ∈ path.parts, part.Plain := by
      intro part hpart
      obtain ⟨hproperty, hcast⟩ := hnames part hpart
      exact ⟨hproperty, hcast⟩
    exact parse_eq_ok_iff.mpr ⟨⟨hne, hparts⟩, rfl⟩
  · rw [← hwritten text path h, hwritten text' path h']

/-- One path with all that the grammar knows of. -/
theorem parse_inverts_render_lines :
    let path : Path := { parts := [⟨"orders", [none], none⟩, ⟨"lines", [some .mapValues], none⟩,
      ⟨"product", [], some "Book"⟩, ⟨"title", [], none⟩] }
    let text := "orders[].lines[values].product<Book>.title"
    parse text = .ok path ∧ path.render = text ∧ text.toList ∈ Grammar.path ∧
      ∀ text', parse text' = .ok path → text' = text := by
  intro path text
  obtain ⟨haccepted, hwritten, hread, hinjective⟩ := parse_inverts_render
  have hrender : path.render = text := by decide +kernel
  have hparse : parse path.render = .ok path := hread path (by decide) (by decide +kernel)
  rw [hrender] at hparse
  exact ⟨hparse, hwritten text path hparse, (haccepted text).mp ⟨path, hparse⟩,
    fun text' h => hinjective text' text path h hparse⟩

end Path

end IndexSync

import VhdlWorkbench.Design.Architecture
import VhdlWorkbench.Proofs.Words

/-!
Architectures with their layout: the declarative part is read from the header up to the word `begin`.
-/

namespace VhdlWorkbench.Design

open Pattern Pattern.Node Declaration List Text

variable {unit : String}

/-- The header of an architecture with the blanks between its tokens. -/
structure ArchitectureHead where
  keyword : Keyword "architecture"
  beforeName : Space
  name : Identifier
  beforeOf : Space
  link : Keyword "of"
  beforeUnit : Space
  unit : Identifier
  beforeIs : Space
  is : Keyword "is"

namespace ArchitectureHead

def text (h : ArchitectureHead) : List Char :=
  h.keyword.chars ++ (h.beforeName.chars ++ (h.name.chars ++ (h.beforeOf.chars ++ (h.link.chars ++
    (h.beforeUnit.chars ++ (h.unit.chars ++ (h.beforeIs.chars ++ h.is.chars)))))))

/-- The pattern of a unit's name accepts the unit of this header. -/
def Named (h : ArchitectureHead) (unit : String) : Prop :=
  unit = anyName ∨ unit = String.ofList h.unit.chars

def nameAt (h : ArchitectureHead) (pos : Nat) : Nat :=
  pos + h.keyword.chars.length + h.beforeName.chars.length

def unitAt (h : ArchitectureHead) (pos : Nat) : Nat :=
  h.nameAt pos + h.name.chars.length + h.beforeOf.chars.length + h.link.chars.length +
    h.beforeUnit.chars.length

theorem text_last (h : ArchitectureHead) : ∃ c, h.text.getLast? = some c ∧ isWord c = true := by
  let last := h.is.identifier (by decide) (by decide)
  refine ⟨last.chars.getLast last.nonempty, ?_, last.wordy _ (getLast_mem last.nonempty)⟩
  have nonempty : h.is.chars ≠ [] := last.nonempty
  simp only [text, ← append_assoc]
  rw [getLast?_append_of_ne_nil _ nonempty]
  exact getLast?_eq_some_getLast nonempty

theorem not_mem_text (h : ArchitectureHead) {c : Char} (solid : isBlank c = false) (mark : isWord c = false) :
    c ∉ h.text := by
  have blank (g : Gap) := g.not_mem solid
  have letter (word : Identifier) := word.not_mem mark
  simp only [text, mem_append, not_or]
  exact ⟨letter (h.keyword.identifier (by decide) (by decide)), blank h.beforeName.toGap, letter h.name,
    blank h.beforeOf.toGap, letter (h.link.identifier (by decide) (by decide)), blank h.beforeUnit.toGap, letter h.unit,
    blank h.beforeIs.toGap, letter (h.is.identifier (by decide) (by decide))⟩

end ArchitectureHead

/-- What stands before a text that opens a line with one of the words: no other line opens so. -/
structure Preface (words : List String) (before : List Char) : Prop where
  quiet : Quiet words true before
  closes : ∀ c, before.getLast? = some c → isWord c = false
  opens : OpensLine true before

theorem preface_nil : Preface ["architecture"] [] :=
  ⟨by decide, by simp, by decide⟩

def headNode (name unit : Node) : Node :=
  start ++ gap ++ lit "architecture" ++ gap1 ++ name ++ gap1 ++ lit "of" ++ gap1 ++ unit ++ gap1 ++ lit "is"

variable {text : Array Char} {t t' r : Thread} {k : Continuation} {rest : List Char}

theorem opening_of_head {name unit : Node} (reached : Reaches text (headNode name unit) blockOptions t t') :
    Opening ["architecture"] text t.pos := by
  obtain ⟨_, opens⟩ := reached.front 7
  exact opening_of_tag rfl (reads_word "architecture") (by decide) gap_behind opens

/-- A header is passed; `f` is what the pattern of the unit's name does to the thread. -/
theorem exec_head (h : ArchitectureHead) (g : Gap) {label : Option String} {unit : Node} {f : Thread → Thread}
    (moves : ∀ t', (f t').pos = t'.pos + h.unit.chars.length)
    (passes : ∀ t' k' rest', textFrom text t'.pos = h.unit.chars ++ rest' →
      (Stops isWord rest') → k' (f t') = some r →
      exec text unit blockOptions t' k' = some r)
    (here : textFrom text t.pos = g.chars ++ (h.text ++ rest)) (line : LineStart text t.pos)
    (next : k ⟨t.pos + g.chars.length + h.text.length, (f ⟨h.unitAt (t.pos + g.chars.length),
      t.spans.setIfInBounds 1 (some (h.nameAt (t.pos + g.chars.length),
        h.nameAt (t.pos + g.chars.length) + h.name.chars.length))⟩).spans⟩ = some r) :
    exec text (headNode (.capture 1 label identifier) unit) blockOptions t k = some r := by
  have length : h.unitAt (t.pos + g.chars.length) + h.unit.chars.length + h.beforeIs.chars.length +
      h.is.chars.length = t.pos + g.chars.length + h.text.length := by
    simp only [ArchitectureHead.unitAt, ArchitectureHead.nameAt, ArchitectureHead.text, length_append]
    omega
  simp only [ArchitectureHead.text, append_assoc] at here
  have atWord := textFrom_append here
  have behindWord := textFrom_append atWord
  have atName := textFrom_append behindWord
  have behindName := textFrom_append atName
  have atOf := textFrom_append behindName
  have behindOf := textFrom_append atOf
  have atUnit := textFrom_append behindOf
  have behindUnit := textFrom_append atUnit
  have atIs := textFrom_append behindUnit
  let word := h.keyword.identifier (by decide) (by decide)
  let link := h.link.identifier (by decide) (by decide)
  let last := h.is.identifier (by decide) (by decide)
  simp only [headNode, exec_seq, exec_capture]
  rw [start, exec_anchor_of_holds ((lineStart_holds_iff rfl t.pos).mpr line)]
  refine exec_gap g here (word.blankless_head _) (Nat.zero_le _) ?_
  refine exec_keyword h.keyword (by decide) atWord ?_
  refine exec_gap h.beforeName.toGap behindWord (h.name.blankless_head _)
    (length_pos_iff.mpr h.beforeName.nonempty) ?_
  refine exec_identifier h.name atName (h.beforeOf.wordless_head _) ?_
  refine exec_gap h.beforeOf.toGap behindName (link.blankless_head _)
    (length_pos_iff.mpr h.beforeOf.nonempty) ?_
  refine exec_keyword h.link (by decide) atOf ?_
  refine exec_gap h.beforeUnit.toGap behindOf (h.unit.blankless_head _)
    (length_pos_iff.mpr h.beforeUnit.nonempty) ?_
  refine passes ⟨h.unitAt (t.pos + g.chars.length), t.spans.setIfInBounds 1
    (some (h.nameAt (t.pos + g.chars.length), h.nameAt (t.pos + g.chars.length) + h.name.chars.length))⟩
    _ _ atUnit (h.beforeIs.wordless_head _) ?_
  have place := moves ⟨h.unitAt (t.pos + g.chars.length), t.spans.setIfInBounds 1
    (some (h.nameAt (t.pos + g.chars.length), h.nameAt (t.pos + g.chars.length) + h.name.chars.length))⟩
  refine exec_gap h.beforeIs.toGap (by rw [place]; exact behindUnit) (last.blankless_head _)
    (length_pos_iff.mpr h.beforeIs.nonempty) ?_
  refine exec_keyword h.is (by decide) (by rw [place]; exact atIs) ?_
  rw [← length] at next
  rw [place]
  exact next

/-- The text between a header and the word `begin`. -/
structure PartText where
  chars : List Char
  nonempty : chars ≠ []
  closes : ∀ c, chars.getLast? = some c → isWord c = false
  noBegin : hasWord "begin" true chars = false

def partNode (unit : Node) : Node :=
  headNode (.capture 1 (some "arch") identifier) (.capture 2 (some "name") unit) ++
    .capture 3 (some "decl") (few .any) ++ edge ++ lit "begin" ++ edge

def partRegex (unit : Node) : Regex where
  node := partNode unit
  options := blockOptions
  slots := 4
  names := [("arch", 1), ("name", 2), ("decl", 3)]

theorem build_declarativePart {h : ArchitectureHead} (named : h.Named unit) :
    Regex.build blockOptions (declarativePart unit) = .ok (partRegex (nameOrAny unit)) := by
  rcases named with rfl | rfl
  · rfl
  · have form := nameOrAny_identifier h.unit
    have pasted : (declarativePart (String.ofList h.unit.chars)).pastedTexts = [String.ofList h.unit.chars] := by
      rw [declarativePart, form]
      rfl
    rw [build_of_wordy pasted (by simpa using h.unit.wordy), declarativePart, form]
    rfl

theorem exists_partMatch (h : ArchitectureHead) (g : Gap) (part : PartText) (word : Keyword "begin")
    (named : h.Named unit) (stops : Stops isWord rest) {pos : Nat}
    (here : textFrom text pos = g.chars ++ (h.text ++ (part.chars ++ (word.chars ++ rest))))
    (line : LineStart text pos) : ∃ m, (partRegex (nameOrAny unit)).matchAt text pos false = some m ∧
      m.named? "decl" = some (String.ofList part.chars) := by
  have inside := lt_size_of_textFrom here (by simp [part.nonempty])
  have atHead := textFrom_append here
  have atPart := textFrom_append atHead
  obtain ⟨d, last, wordy⟩ := h.text_last
  obtain ⟨positive, before⟩ := getElem?_last_of_textFrom atHead last
  apply Exists.intro
  apply And.intro
  · apply Regex.matchAt_of_exec rfl (Nat.le_of_lt inside)
    simp only [partRegex, partNode, exec_seq]
    apply exec_head h g
      (f := fun t' => ⟨t'.pos + h.unit.chars.length,
        t'.spans.setIfInBounds 2 (some (t'.pos, t'.pos + h.unit.chars.length))⟩)
      (fun _ => rfl) ?_ here line
    · rw [exec_capture]
      apply exec_few_of_segment atPart (fun _ _ => rfl)
      · -- an earlier end would be a word `begin` in the part
        exact fun i inside => exec_word_of_absent (by decide) (by decide) atPart ⟨positive, d, before, wordy⟩
          part.closes part.noBegin inside rfl
      · exact exec_wholeWord word (by decide) (by decide) atPart part.nonempty part.closes stops rfl rfl
    · intro t' k' rest' at_ apart next
      exact exec_nameOrAny h.unit named at_ apart next
  · exact Match.named?_of_span rfl (by simp) rfl atPart

theorem search_part (h : ArchitectureHead) (part : PartText) (word : Keyword "begin")
    (named : h.Named unit) {before : List Char} (preface : Preface ["architecture"] before)
    (stops : Stops isWord rest) : ∃ m, (partRegex (nameOrAny unit)).search?
        (String.ofList (before ++ (h.text ++ (part.chars ++ (word.chars ++ rest))))) = some m ∧
      m.named? "decl" = some (String.ofList part.chars) := by
  rw [Regex.search?, String.toList_ofList]
  refine search_opening rfl ?_ (textFrom_zero _) ?_ preface.quiet preface.closes preface.opens ?_
  · intro p m found
    obtain ⟨_, head⟩ := Regex.matchAt_front 4 found
    exact opening_of_head head
  · exact ⟨fun _ => rfl, fun _ => Or.inl rfl⟩
  · intro g p line there
    exact exists_partMatch h g part word named stops there line

def sampleHead : ArchitectureHead where
  keyword := ⟨"architecture".toList, by decide⟩
  beforeName := oneSpace
  name := ⟨"rtl".toList, by decide, by decide⟩
  beforeOf := oneSpace
  link := ⟨"of".toList, by decide⟩
  beforeUnit := oneSpace
  unit := ⟨"e".toList, by decide, by decide⟩
  beforeIs := oneSpace
  is := ⟨"is".toList, by decide⟩

end VhdlWorkbench.Design

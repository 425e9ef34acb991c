import VhdlWorkbench.Proofs.ArchitectureEnd
import VhdlWorkbench.Proofs.InstancePatterns

/-!
The instances that are listed, among those that the aligner takes.
-/

namespace VhdlWorkbench.Design

open String (ofList toList_ofList)
open Pattern Pattern.Node Declaration List Option Text

/-- The letters of `function` or `procedure` with a blank behind them stand at the beginning of a text. -/
def opensSubprogram (cs : List Char) : Bool :=
  ["function", "procedure"].any fun word =>
    decide (Reads word (cs.take word.length)) && (cs.drop word.length).head?.any isBlank

/-- A text has no place where a subprogram could be taken to begin. -/
def SubprogramFree (cs : List Char) : Prop :=
  occurs (fun _ => opensSubprogram) false cs = false

instance (cs : List Char) : Decidable (SubprogramFree cs) :=
  inferInstanceAs (Decidable (_ = false))

theorem subprogramBody_eq :
    subprogramBody =
      { node := .capture 1 none (.alt (lit "function") (lit "procedure")) ++ gap1 ++ .capture 2 none identifier ++
          few .any ++ edge ++ lit "end" ++
          oneOf [gap1 ++ .ref 1 ++ edge, gap1 ++ .ref 2 ++ edge, gap ++ lit ";"]
        options := { ignoreCase := true, dotAll := true }, slots := 3, names := [] } :=
  rfl

theorem opensSubprogram_of_word {text : Array Char} {t t' : Thread} {pos : Nat} {word : String}
    {w : List Char} (listed : word ∈ ["function", "procedure"]) (reads : Reads word w)
    (blanks : Reaches text gap1 { ignoreCase := true, dotAll := true } t t')
    (here : textFrom text pos = w ++ textFrom text t.pos) :
    opensSubprogram (textFrom text pos) = true := by
  obtain ⟨g, behind, enough, -⟩ := reaches_gap blanks
  obtain ⟨c, cs, letters⟩ := exists_cons_of_ne_nil (length_pos_iff.mp enough)
  refine any_eq_true.mpr ⟨word, listed, ?_⟩
  rw [here, ← reads.length_eq, take_left, drop_left, behind]
  simp [reads, letters, g.blank c]

theorem opensSubprogram_of_match {text : Array Char} {pos : Nat} {b : Bool} {m : Match}
    (found : subprogramBody.matchAt text pos b = some m) : opensSubprogram (textFrom text pos) = true := by
  rw [subprogramBody_eq] at found
  obtain ⟨_, _, ⟨u, word, rfl⟩, blanks⟩ := Regex.matchAt_front 5 found
  rcases word with function | procedure
  · obtain ⟨w, reads, here, rfl⟩ := reaches_word function
    exact opensSubprogram_of_word (by decide) reads blanks here
  · obtain ⟨w, reads, here, rfl⟩ := reaches_word procedure
    exact opensSubprogram_of_word (by decide) reads blanks here

theorem replace_subprograms {cs : List Char} (free : SubprogramFree cs) :
    subprogramBody.replace "" (ofList cs) = ofList cs := by
  refine Regex.replace_eq_self rfl "" fun pos => ?_
  rw [eq_none_iff_forall_not_mem, toList_ofList]
  intro m found
  have opens := opensSubprogram_of_match found
  rw [← Nat.zero_add pos, textFrom_add, textFrom_zero] at opens
  by_cases inside : pos < cs.length
  · rw [not_occurs (p := fun _ => opensSubprogram) free inside] at opens
    exact Bool.noConfusion opens
  · rw [drop_eq_nil_of_le (by omega)] at opens
    exact absurd opens (by decide)

/-- An architecture around its body: the header, a declarative part without a colon, and the end. -/
structure BodyFrame where
  head : ArchitectureHead
  part : List Char
  colonless : ':' ∉ part
  word : Keyword "begin"
  lead : Space
  trail : Gap
  close : ArchitectureEnd

namespace BodyFrame

def content (f : BodyFrame) (body : List Char) : List Char :=
  f.part ++ (f.word.chars ++ (f.lead.chars ++ (body ++ f.trail.chars)))

def text (f : BodyFrame) (body rest : List Char) : List Char :=
  f.head.text ++ (f.content body ++ (f.close.text f.head.name ++ rest))

/-- What stands before the blanks that lead to the body, in an architecture behind blanks. -/
def front (f : BodyFrame) (g : Gap) : List Char :=
  g.chars ++ (f.head.text ++ (f.part ++ f.word.chars))

theorem front_last (f : BodyFrame) (g : Gap) : ∃ c, (f.front g).getLast? = some c ∧ isWord c = true := by
  let word := f.word.identifier (by decide) (by decide)
  have nonempty : f.word.chars ≠ [] := word.nonempty
  refine ⟨word.chars.getLast word.nonempty, ?_, word.wordy _ (getLast_mem word.nonempty)⟩
  simp only [front, ← append_assoc]
  rw [getLast?_append_of_ne_nil _ nonempty]
  exact getLast?_eq_some_getLast nonempty

theorem front_colonless (f : BodyFrame) (g : Gap) : ':' ∉ f.front g := by
  simp only [front, mem_append, not_or]
  exact ⟨g.not_mem (by decide), f.head.not_mem_text (by decide) (by decide), f.colonless,
    (f.word.identifier (by decide) (by decide)).not_mem (by decide)⟩

def labelLead (f : BodyFrame) (l : InstanceLayout) : Space where
  chars := f.lead.chars ++ l.lead.chars
  blank := by
    intro c member
    rcases mem_append.mp member with first | second
    · exact f.lead.blank c first
    · exact l.lead.blank c second
  nonempty := by simp [f.lead.nonempty]

end BodyFrame

section Listed

variable {f : BodyFrame} {l : InstanceLayout} {g : Gap} {tail : List Char}

def InstanceLayout.entry (l : InstanceLayout) : Instance where
  label := ofList l.label.chars
  unit := ofList l.unit.unit.chars

def bodyText (f : BodyFrame) (l : InstanceLayout) (g : Gap) (tail : List Char) : List Char :=
  f.front g ++ ((f.labelLead l).chars ++ (l.followed (f.trail.chars ++ tail)).statement)

theorem textFrom_lead (g : Gap) (tail : List Char) {i : Nat} (inside : i ≤ (f.labelLead l).chars.length) :
    ∃ blanks : Gap, blanks.chars.length = (f.labelLead l).chars.length - i ∧
      textFrom (bodyText f l g tail).toArray ((f.front g).length + i) =
        blanks.chars ++ (l.followed (f.trail.chars ++ tail)).statement := by
  refine ⟨⟨(f.labelLead l).chars.drop i, fun c member => (f.labelLead l).blank c (mem_of_mem_drop member)⟩,
    length_drop, ?_⟩
  simp [textFrom, bodyText, ← drop_drop, drop_append_of_le_length inside]

theorem lead_of_labelAt {pos : Nat} (single : ∀ line ∈ behindFeeds l.statement, labelled line = false)
    (colonless : ':' ∉ tail) (opens : LabelAt (bodyText f l g tail).toArray pos) :
    '\n' ∈ (f.labelLead l).chars ∧ ∃ i ≤ (f.labelLead l).chars.length, pos = (f.front g).length + i := by
  refine place_of_label (f.front_last g) (f.front_colonless g) ?_ opens
  have free : ':' ∉ f.trail.chars ++ tail := by
    simp only [mem_append, not_or]
    exact ⟨f.trail.not_mem (by decide), colonless⟩
  have whole := unlabelled_append single free
  rw [← l.statement_followed] at whole
  exact whole

variable {r : Regex}

section

variable (plain : r.opening = none)
  (starts : ∀ {pos b m}, r.matchAt (bodyText f l g tail).toArray pos b = some m → LabelAt (bodyText f l g tail).toArray pos)
  (single : ∀ line ∈ behindFeeds l.statement, labelled line = false) (colonless : ':' ∉ tail)
include plain starts single colonless

theorem matches_of_failing
    (fails : '\n' ∈ (f.labelLead l).chars → ∀ (blanks : Gap) pos b, textFrom (bodyText f l g tail).toArray pos = blanks.chars ++ (l.followed (f.trail.chars ++ tail)).statement → r.matchAt (bodyText f l g tail).toArray pos b = none) :
    r.matches_ (ofList (bodyText f l g tail)) = [] := by
  refine matches_of_silent plain fun pos => ?_
  rw [eq_none_iff_forall_not_mem]
  intro m found
  obtain ⟨feed, i, inside, rfl⟩ := lead_of_labelAt single colonless (starts found)
  obtain ⟨blanks, -, there⟩ := textFrom_lead g tail inside
  rw [mem_def, fails feed blanks _ _ there] at found
  simp at found

theorem matches_of_telling (feed : '\n' ∈ (f.labelLead l).chars)
    (tells : ∀ (blanks : Gap) pos, LineStart (bodyText f l g tail).toArray pos → textFrom (bodyText f l g tail).toArray pos = blanks.chars ++ (l.followed (f.trail.chars ++ tail)).statement → ∃ m, r.matchAt (bodyText f l g tail).toArray pos false = some m ∧ Tells (l.followed (f.trail.chars ++ tail)) (pos + blanks.chars.length) m) :
    ∃ m, r.matches_ (ofList (bodyText f l g tail)) = [m] ∧ (⟨m.group 1, m.group 2⟩ : Instance) = l.entry := by
  let place : LinePlace := ⟨f.front g, (f.labelLead l).toGap, Or.inr feed⟩
  change ∃ m, r.matches_ (ofList (place.text _)) = [m] ∧ _
  refine matches_of_label plain ?_ ?_
  · intro pos b m found
    have label := starts found
    obtain ⟨-, i, inside, rfl⟩ := lead_of_labelAt single colonless label
    exact ⟨i, inside, rfl, label.1⟩
  · intro i inside line
    obtain ⟨blanks, length, there⟩ := textFrom_lead g tail inside
    obtain ⟨m, found, ⟨label, unit⟩, late⟩ := tells blanks _ line there
    refine ⟨m, found, ?_, ?_⟩
    · rw [label, unit]
      rfl
    · have bound : i ≤ place.lead.chars.length := inside
      have rest : blanks.chars.length = place.lead.chars.length - i := length
      omega

end

end Listed

/-- The only instance of an architecture is listed if it opens a line and names its unit as one of the two
patterns has it. -/
theorem instances_of_frame (f : BodyFrame) (l : InstanceLayout) {source unit : String} {before rest : List Char}
    (named : f.head.Named unit) (preface : Preface ["architecture"] before)
    (stops : Stops isWord rest)
    (first : EndsFirst f.head (f.content l.text) (f.close.text f.head.name ++ rest))
    (single : ∀ line ∈ behindFeeds l.statement, labelled line = false) (proper : ¬Reads "entity" l.unit.text)
    (free : SubprogramFree (before ++ f.text l.text rest))
    (written : Source.withoutComments source = ofList (before ++ f.text l.text rest)) :
    instances? source unit = .ok (some
      (if '\n' ∈ (f.labelLead l).chars ∧ (l.unit.isEntity = true ∨ l.unit.isAlone = true) then [l.entry] else [])) := by
  obtain ⟨m, found, g, tail, body, colonless, -⟩ := search_architecture f.head f.close named preface stops first
  have searched : m.text = ofList (bodyText f l g tail) := by
    rw [body]
    simp only [bodyText, BodyFrame.front, BodyFrame.labelLead, BodyFrame.content, InstanceLayout.text,
      InstanceLayout.statement_followed, append_assoc]
  have entities : (entityInstance.matches_ m.text).map (fun i => (⟨i.group 1, i.group 2⟩ : Instance)) =
      if '\n' ∈ (f.labelLead l).chars ∧ l.unit.isEntity = true then [l.entry] else [] := by
    rw [searched]
    split
    · next holds =>
      obtain ⟨n, lone, entry⟩ := matches_of_telling (r := entityInstance) rfl labelAt_of_entity single colonless holds.1
        fun blanks pos line there => entity_found there line holds.2
      rw [lone, map_singleton, entry]
    · next fails =>
      rw [matches_of_failing (r := entityInstance) rfl labelAt_of_entity single colonless, map_nil]
      intro feed blanks pos b there
      have other : l.unit.isEntity = false := by simpa [feed] using fails
      exact entity_silent there other proper
  have components : (componentInstance.matches_ m.text).map (fun i => (⟨i.group 1, i.group 2⟩ : Instance)) =
      if '\n' ∈ (f.labelLead l).chars ∧ l.unit.isAlone = true then [l.entry] else [] := by
    rw [searched]
    split
    · next holds =>
      obtain ⟨n, lone, entry⟩ := matches_of_telling (r := componentInstance) rfl labelAt_of_component single colonless
        holds.1 fun blanks pos line there => component_found there line holds.2
      rw [lone, map_singleton, entry]
    · next fails =>
      rw [matches_of_failing (r := componentInstance) rfl labelAt_of_component single colonless, map_nil]
      intro feed blanks pos b there
      have other : l.unit.isAlone = false := by simpa [feed] using fails
      exact component_silent there other
  have apart : l.unit.isEntity = true → l.unit.isAlone = false := by
    intro entity
    unfold UnitReference.isEntity UnitReference.isAlone at *
    split at entity <;> simp_all
  have listed : instances? source unit = .ok (some ((entityInstance.matches_ m.text ++
      componentInstance.matches_ m.text).map fun i => ⟨i.group 1, i.group 2⟩)) := by
    rw [instances?, written, replace_subprograms free, build_architectureBody named]
    simp only [orFault, Except.mapError, bind, Except.bind]
    rw [BodyFrame.text, found]
    rfl
  rw [listed, map_append, entities, components]
  by_cases feed : '\n' ∈ (f.labelLead l).chars
  · cases entity : l.unit.isEntity with
    | true => simp [feed, apart entity]
    | false => simp [feed]
  · simp [feed]

/-- An instance that the aligner takes, alone in an architecture, is listed with its label and its unit exactly if
it opens a line and names its unit as an entity, or alone and without an architecture in parentheses. -/
theorem aligned_instance_listed_iff (f : BodyFrame) {s label name source unit : String} {before rest : List Char}
    (aligned : AlignedAs s label name) (proper : ¬Reads "entity" name.toList)
    (single : ∀ line ∈ behindFeeds (dropBlanks s.toList), labelled line = false)
    (named : f.head.Named unit) (preface : Preface ["architecture"] before)
    (stops : ∀ c, rest.head? = some c → isWord c = false)
    (first : EndsFirst f.head (f.content s.toList) (f.close.text f.head.name ++ rest))
    (free : SubprogramFree (before ++ f.text s.toList rest))
    (written : Source.withoutComments source = ofList (before ++ f.text s.toList rest)) :
    (∃ u : UnitReference, name = ofList u.text) ∧
      ∃ listed, instances? source unit = .ok (some listed) ∧
        ∀ u : UnitReference, name = ofList u.text →
          (listed = [⟨label, ofList u.unit.chars⟩] ↔
            '\n' ∈ f.lead.chars ++ s.toList.takeWhile isBlank ∧ (u.isEntity = true ∨ u.isAlone = true)) := by
  -- whatever form the unit's text is read in, the same instances are listed
  have every (u : UnitReference) (form : name = ofList u.text) : ∃ listed,
      instances? source unit = .ok (some listed) ∧ (listed = [⟨label, ofList u.unit.chars⟩] ↔
        '\n' ∈ f.lead.chars ++ s.toList.takeWhile isBlank ∧ (u.isEntity = true ∨ u.isAlone = true)) := by
    subst form
    obtain ⟨l, text, rfl, rfl⟩ := exists_layout_of_aligned aligned
    have solid : ∀ c, l.statement.head? = some c → isBlank c = false := l.label.blankless_head _
    have lead : s.toList.takeWhile isBlank = l.lead.chars := by
      rw [text, InstanceLayout.text, takeWhile_append_of_stop l.lead.blank solid]
    rw [text, InstanceLayout.text, dropBlanks_gap l.lead solid] at single
    rw [toList_ofList] at proper
    rw [text] at first free written
    refine ⟨_, instances_of_frame f l named preface stops first single proper free written, ?_⟩
    rw [lead, BodyFrame.labelLead, InstanceLayout.entry]
    split
    · next holds => simpa using holds
    · next fails => simpa using fails
  obtain ⟨u, form⟩ := exists_reference_of_aligned aligned
  obtain ⟨listed, found, -⟩ := every u form
  refine ⟨⟨u, form⟩, listed, found, fun u' form' => ?_⟩
  obtain ⟨listed', found', complete⟩ := every u' form'
  obtain rfl : listed = listed' := by simpa using found.symm.trans found'
  exact complete

theorem alignedAs_of_parts {s label name : String} (level : Int)
    (parts : (Layout.instanceBlock.matchStart? s).map (fun m => (m.named "inst_name", m.named "type")) =
      some (label, name))
    (taken : (Layout.alignInstance s level).toOption.join.isSome = true) : AlignedAs s label name := by
  obtain ⟨m, found, same⟩ := map_eq_some_iff.mp parts
  obtain ⟨aligned, joined⟩ := isSome_iff_exists.mp taken
  cases outcome : Layout.alignInstance s level with
  | error fault => simp [outcome, Except.toOption] at joined
  | ok result =>
    obtain rfl : result = some aligned := by simpa [outcome, Except.toOption] using joined
    exact ⟨m, level, aligned, found, outcome, congrArg Prod.fst same, congrArg Prod.snd same⟩

/-- The header and the end of an architecture of e, with its body on lines of their own. -/
def sampleFrame : BodyFrame where
  head := sampleHead
  part := ['\n']
  colonless := by decide
  word := ⟨"begin".toList, by decide⟩
  lead := ⟨newLine, by decide⟩
  trail := newLine
  close := ⟨⟨"end".toList, by decide⟩, .name oneSpace⟩

def entityReference : UnitReference where
  form := .entity "entity".toList (by decide) oneSpace ⟨"work".toList, by decide, by decide⟩
  unit := ⟨"sub".toList, by decide, by decide⟩
  architecture := some "rtl".toList

theorem aligned_instance_listed_iff_entity :
    AlignedAs "u1 : entity work.sub(rtl) port map (\na => b\n);" "u1" "entity work.sub(rtl)" ∧
      sampleFrame.head.Named "e" ∧ Preface ["architecture"] [] ∧
      instances? "architecture rtl of e is\nbegin\nu1 : entity work.sub(rtl) port map (\na => b\n);\nend rtl;\n" "e" =
        .ok (some [⟨"u1", "sub"⟩]) := by
  have aligned : AlignedAs "u1 : entity work.sub(rtl) port map (\na => b\n);" "u1" "entity work.sub(rtl)" :=
    alignedAs_of_parts 0 (by decide +kernel) (by decide +kernel)
  obtain ⟨-, listed, found, complete⟩ := aligned_instance_listed_iff sampleFrame aligned (by decide) (by decide)
    (Or.inr rfl) preface_nil (show ∀ c, ";\n".toList.head? = some c → _ by rintro c ⟨⟩; decide) (by decide)
    (by decide) (Source.withoutComments_plain (by decide))
  have single := (complete entityReference rfl).mpr ⟨by decide, Or.inl rfl⟩
  refine ⟨aligned, Or.inr rfl, preface_nil, ?_⟩
  rw [← show listed = [⟨"u1", "sub"⟩] from single]
  exact found

def componentLayout : InstanceLayout where
  lead := noGap
  label := ⟨"u1".toList, by decide, by decide⟩
  afterLabel := oneSpace.toGap
  afterColon := oneSpace.toGap
  unit := ⟨.component "component".toList (by decide) oneSpace, ⟨"sub".toList, by decide, by decide⟩, none⟩
  afterUnit := oneSpace.toGap
  spaced := by decide
  maps := "port".toList
  isMaps := by decide
  between := oneSpace
  word := "map".toList
  isMap := by decide
  behind := " (\na => b\n);".toList
  ends := ⟨' ', by decide⟩

/-- An instance that is written with the word `component` is aligned, and not listed. -/
theorem component_instance_not_listed :
    AlignedAs "u1 : component sub port map (\na => b\n);" "u1" "component sub" ∧
      instances? "architecture rtl of e is\nbegin\nu1 : component sub port map (\na => b\n);\nend rtl;\n" "e" =
        .ok (some []) :=
  ⟨alignedAs_of_parts 0 (by decide +kernel) (by decide +kernel),
    instances_of_frame sampleFrame componentLayout (Or.inr rfl) preface_nil
      (show ∀ c, ";\n".toList.head? = some c → _ by rintro c ⟨⟩; decide) (by decide) (by decide) (by decide)
      (by decide) (Source.withoutComments_plain (by decide))⟩

end VhdlWorkbench.Design

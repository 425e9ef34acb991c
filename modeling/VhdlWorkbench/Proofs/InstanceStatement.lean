import VhdlWorkbench.Layout.Instance
import VhdlWorkbench.Proofs.Words

/-!
Instances as the aligner takes them, up to the word `map`.
-/

namespace VhdlWorkbench.Design

open Pattern Pattern.Node Layout List Option Text
open String (ofList)

/-- How an instance names its unit: alone, or behind one of two words. -/
inductive UnitForm where
  | plain
  | entity (keyword : List Char) (reads : Reads "entity" keyword) (space : Space) (library : Identifier)
  | component (keyword : List Char) (reads : Reads "component" keyword) (space : Space)

def UnitForm.text : UnitForm → List Char
  | .plain => []
  | .entity keyword _ space library => keyword ++ (space.chars ++ (library.chars ++ ['.']))
  | .component keyword _ space => keyword ++ space.chars

/-- The unit of an instance, with the text in parentheses behind its name. -/
structure UnitReference where
  form : UnitForm
  unit : Identifier
  architecture : Option (List Char)

namespace UnitReference

def suffix (u : UnitReference) : List Char :=
  match u.architecture with
  | none => []
  | some inside => '(' :: (inside ++ [')'])

def text (u : UnitReference) : List Char :=
  u.form.text ++ (u.unit.chars ++ u.suffix)

end UnitReference

/-- An instance up to the word `map`, and what stands behind it. -/
structure InstanceLayout where
  lead : Gap
  label : Identifier
  afterLabel : Gap
  afterColon : Gap
  unit : UnitReference
  afterUnit : Gap
  spaced : unit.architecture = none → afterUnit.chars ≠ []
  maps : List Char
  isMaps : ∃ word ∈ ["generic", "port"], Reads word maps
  between : Space
  word : List Char
  isMap : Reads "map" word
  behind : List Char
  ends : ∃ c, behind.head? = some c ∧ isWord c = false

namespace InstanceLayout

def mapText (l : InstanceLayout) : List Char :=
  l.maps ++ (l.between.chars ++ (l.word ++ l.behind))

def statement (l : InstanceLayout) : List Char :=
  l.label.chars ++ (l.afterLabel.chars ++ ':' :: (l.afterColon.chars ++ (l.unit.text ++ (l.afterUnit.chars ++
    l.mapText))))

def text (l : InstanceLayout) : List Char :=
  l.lead.chars ++ l.statement

def followed (l : InstanceLayout) (rest : List Char) : InstanceLayout where
  __ := l
  behind := l.behind ++ rest
  ends := by
    obtain ⟨c, head, mark⟩ := l.ends
    exact ⟨c, by rw [head?_append, head, some_or], mark⟩

theorem statement_followed (l : InstanceLayout) (rest : List Char) : (l.followed rest).statement = l.statement ++ rest := by
  simp [statement, mapText, followed]

def mapsWord (l : InstanceLayout) : Identifier where
  chars := l.maps
  nonempty := by
    obtain ⟨word, listed, reads⟩ := l.isMaps
    simp only [mem_cons, not_mem_nil, or_false] at listed
    rcases listed with rfl | rfl <;> exact (reads.identifier (by decide) (by decide)).nonempty
  wordy := by
    obtain ⟨word, listed, reads⟩ := l.isMaps
    simp only [mem_cons, not_mem_nil, or_false] at listed
    rcases listed with rfl | rfl <;> exact reads.wordy (by decide)

def mapWord (l : InstanceLayout) : Identifier :=
  l.isMap.identifier (by decide) (by decide)

theorem stops_behind (l : InstanceLayout) : Stops isWord l.behind := by
  obtain ⟨c, head, mark⟩ := l.ends
  intro d head'
  obtain rfl := some.inj (head.symm.trans head')
  exact mark

theorem stops_unit (l : InstanceLayout) :
    Stops isWord (l.unit.suffix ++ (l.afterUnit.chars ++ l.mapText)) := by
  intro c head
  cases form : l.unit.architecture with
  | none =>
    simp only [UnitReference.suffix, form, nil_append] at head
    rw [head?_append_of_ne_nil _ (l.spaced form)] at head
    exact isWord_of_isBlank (l.afterUnit.blank c (mem_of_head? head))
  | some inside =>
    simp only [UnitReference.suffix, form, cons_append, head?_cons, some.injEq] at head
    exact head ▸ by decide

end InstanceLayout

/-- The aligner takes a text as an instance with this label and this text for its unit. -/
def AlignedAs (s label unit : String) : Prop :=
  ∃ m level aligned, instanceBlock.matchStart? s = some m ∧ alignInstance s level = .ok (some aligned) ∧
    m.named "inst_name" = label ∧ m.named "type" = unit

section Aligned

variable {text : Array Char} {t t' : Thread}

def referenceNode : Node :=
  optional (oneOf [lit "component" ++ gap1, lit "entity" ++ gap1 ++ identifier ++ lit "."]) ++ identifier ++
    edge ++
    Node.optional (.group (lit "(" ++ many1 (.set false [.category false .word, .category false .space]) ++ lit ")"))

def labelBlock : Node :=
  .capture 1 (some "emptyline") (many (.char '\n')) ++ spacing ++ .capture 2 (some "inst_name") identifier ++ gap ++
    lit ":" ++ gap

def mapNode : Node :=
  .group (.capture 4 (some "gen_or_port") (choice [lit "generic", lit "port"]) ++ gap1 ++ lit "map")

theorem instanceBlock_eq :
    instanceBlock =
      { node :=
          labelBlock ++ .capture 3 (some "type") referenceNode ++ gap ++ mapNode ++ gap ++ lit "(" ++
            .capture 5 (some "content") (many .any) ++ lit ")" ++ gap ++ lit ";"
        options := oneRow, slots := 6,
        names := [("emptyline", 1), ("inst_name", 2), ("type", 3), ("gen_or_port", 4), ("content", 5)] } :=
  rfl

theorem end_of_unit (reached : Reaches text referenceNode oneRow t t') :
    (∀ c, text[t'.pos]? = some c → isWord c = false) ∨ (segment text t.pos t'.pos).getLast? = some ')' := by
  obtain ⟨_, ⟨_, ⟨b, lead, name⟩, edged, rfl⟩, suffix⟩ := reached
  rcases reaches_optional suffix with rfl | ⟨d, inner, mark⟩
  · left
    obtain ⟨n, here, rfl⟩ := reaches_identifier name
    have stops := (wordEdge_behind_iff here n.nonempty n.wordy).mp edged
    rwa [Stops, ← head?_of_textFrom rfl] at stops
  · right
    have front : t.pos ≤ d.pos := Nat.le_trans lead.pos_le
      (Nat.le_trans name.pos_le inner.pos_le)
    obtain ⟨here, rfl⟩ := reaches_mark (c := ')') (by rfl) (by decide) mark
    have last : segment text d.pos (d.pos + 1) = [')'] := segment_of_textFrom (show _ = [')'] ++ _ from here)
    rw [Regex.segment_split front (Nat.le_add_right _ 1), last, getLast?_concat]

theorem lead_of_reaches (reached : Reaches text (.capture 1 (some "emptyline") (many (.char '\n')) ++ spacing)
    oneRow t t') : ∃ g : Gap, textFrom text t.pos = g.chars ++ textFrom text t'.pos := by
  obtain ⟨_, ⟨_, feeds, rfl⟩, spaces⟩ := reached
  obtain ⟨x, here, feed, -, -, rfl⟩ := reaches_run feeds
  obtain ⟨y, there, space, -, -, rfl⟩ := reaches_run spaces
  refine ⟨⟨x ++ y, ?_⟩, by rw [here, there, append_assoc]⟩
  intro c member
  rcases mem_append.mp member with first | second
  · obtain rfl : c = '\n' := (charAccepts_mark (by decide)).mp (feed c first)
    decide
  · have blank : memberAcceptsLetter oneRow ' ' c = true ↔ c = ' ' :=
      charAccepts_mark (o := oneRow) (p := ' ') (c := c) (by decide)
    have tab : memberAcceptsLetter oneRow '\t' c = true ↔ c = '\t' :=
      charAccepts_mark (o := oneRow) (p := '\t') (c := c) (by decide)
    have either := space c second
    simp only [Layout.space, Single.accepts, SetItem.accepts, oneRow, ↓reduceIte] at either blank tab
    simp only [any_cons, any_nil, Bool.or_false, bne_iff_ne, ne_eq, Bool.not_eq_false, Bool.or_eq_true, blank,
      tab] at either
    rcases either with rfl | rfl <;> decide

theorem label_of_block (reached : Reaches text labelBlock oneRow t t') (room : 2 < t.spans.size) :
    ∃ (lead : Gap) (label : Identifier) (a b : Gap) (start : Nat) (rest : List Char),
      textFrom text t.pos = lead.chars ++ (label.chars ++ (a.chars ++ ':' :: (b.chars ++ textFrom text t'.pos))) ∧
      t'.spans[2]? = some (some (start, start + label.chars.length)) ∧ textFrom text start = label.chars ++ rest := by
  obtain ⟨_, ⟨_, ⟨_, ⟨u, toLabel, v, label, rfl⟩, behindLabel⟩, colon⟩, behindColon⟩ := reached
  have room' : 2 < v.spans.size := by
    rwa [Reaches.spans_size label, Reaches.spans_size toLabel]
  obtain ⟨lead, atLead⟩ := lead_of_reaches toLabel
  obtain ⟨name, atName, moved⟩ := reaches_identifier label
  obtain ⟨a, atGap, -, sameGap⟩ := reaches_gap behindLabel
  obtain ⟨atColon, sameColon⟩ := reaches_mark (c := ':') (by rfl) (by decide) colon
  obtain ⟨b, atBlank, -, sameBlank⟩ := reaches_gap behindColon
  refine ⟨lead, name, a, b, u.pos, _, ?_, ?_, atName⟩
  · rw [← atBlank, ← atColon, ← atGap, ← atName, ← atLead]
  · rw [sameBlank, sameColon, sameGap]
    exact (Array.getElem?_setIfInBounds_self_of_lt room').trans (by rw [moved])

theorem maps_of_reaches (reached : Reaches text (mapNode ++ gap ++ lit "(") oneRow t t') :
    ∃ (maps : Identifier) (between : Space) (word behind : List Char),
      (∃ word ∈ ["generic", "port"], Reads word maps.chars) ∧ Reads "map" word ∧
      (∃ c, behind.head? = some c ∧ isWord c = false) ∧
      textFrom text t.pos = maps.chars ++ (between.chars ++ (word ++ behind)) := by
  obtain ⟨_, ⟨_, ⟨_, ⟨_, ⟨v, kind, rfl⟩, blanks⟩, second⟩, gap⟩, paren⟩ := reached
  obtain ⟨g, atGap, enough, -⟩ := reaches_gap blanks
  obtain ⟨w, reads, atWord, -⟩ := reaches_word second
  obtain ⟨g', atBlank, -, -⟩ := reaches_gap gap
  obtain ⟨atParen, -⟩ := reaches_mark (c := '(') (by rfl) (by decide) paren
  have ends : ∃ c, (g'.chars ++ '(' :: textFrom text t'.pos).head? = some c ∧ isWord c = false := by
    obtain ⟨c, head⟩ := isSome_iff_exists.mp (isSome_head?.mpr
      (show g'.chars ++ '(' :: textFrom text t'.pos ≠ [] by simp))
    exact ⟨c, head, g'.wordless_head (by rintro c ⟨⟩; decide) c head⟩
  have behind : textFrom text v.pos = g.chars ++ (w ++ (g'.chars ++ '(' :: textFrom text t'.pos)) := by
    rw [← atParen, ← atBlank, ← atWord, ← atGap]
  rcases kind with generic | port
  · obtain ⟨x, reads', here, -⟩ := reaches_word generic
    exact ⟨reads'.identifier (by decide) (by decide), ⟨g, length_pos_iff.mp enough⟩, w, _,
      ⟨"generic", by decide, reads'⟩, reads, ends, here.trans (congrArg _ behind)⟩
  · obtain ⟨x, reads', here, -⟩ := reaches_word port
    exact ⟨reads'.identifier (by decide) (by decide), ⟨g, length_pos_iff.mp enough⟩, w, _,
      ⟨"port", by decide, reads'⟩, reads, ends, here.trans (congrArg _ behind)⟩

/-- The three pieces that a match of an instance passed: its label, its unit and the words of its map. -/
theorem pieces_of_match {m : Match} (found : instanceBlock.matchAt text 0 false = some m) :
    ∃ a b c d : Thread, Reaches text labelBlock oneRow ⟨0, Array.replicate 6 none⟩ a ∧ Reaches text referenceNode oneRow a b ∧
      c.pos = b.pos ∧ Reaches text (gap ++ (mapNode ++ gap ++ lit "(")) oneRow c d ∧
      (∀ x start stop, a.spans[2]? = some (some (start, stop)) → segment text start stop = x →
        m.named "inst_name" = ofList x) ∧
      m.named "type" = ofList (segment text a.pos b.pos) := by
  rw [instanceBlock_eq] at found
  obtain ⟨last, ⟨_, ⟨_, ⟨_, ⟨d, toParen, content⟩, close⟩, trail⟩, semicolon⟩, rfl⟩ := Regex.matchAt_reaches found
  obtain ⟨_, ⟨_, ⟨_, ⟨_, ⟨a, label, b, body, rfl⟩, behindUnit⟩, maps⟩, blanks⟩, paren⟩ := toParen
  have room : b.spans.size = 6 :=
    (Reaches.spans_size body).trans ((Reaches.spans_size label).trans (by simp))
  -- what follows a group keeps its span
  have back : Reaches text (gap ++ (mapNode ++ (gap ++ (lit "(" ++ (.capture 5 (some "content") (many .any) ++
      (lit ")" ++ (gap ++ lit ";"))))))) oneRow _ last :=
    ⟨_, behindUnit, _, maps, _, blanks, _, paren, _, content, _, close, _, trail, semicolon⟩
  have typeSpan : last.spans[3]? = some (some (a.pos, b.pos)) := by
    rw [back.span_eq (by decide)]
    exact Array.getElem?_setIfInBounds_self_of_lt (by omega)
  have labelSpan : last.spans[2]? = a.spans[2]? := by
    have all : Reaches text (.capture 3 (some "type") referenceNode ++ _) oneRow a last := ⟨_, ⟨b, body, rfl⟩, back⟩
    exact all.span_eq (by decide)
  refine ⟨a, b, ⟨b.pos, b.spans.setIfInBounds 3 (some (a.pos, b.pos))⟩, d, label, body, rfl, ⟨_, behindUnit, _, ⟨_, maps, blanks⟩, paren⟩, ?_, ?_⟩
  · rintro x start stop span rfl
    rw [Match.named, Match.named?_eq_segment rfl (labelSpan.trans span), getD_some]
  · rw [Match.named, Match.named?_eq_segment rfl typeSpan, getD_some]

/-- A text that begins with an instance has its layout. -/
theorem layout_of_match {m : Match} {u : UnitReference} (found : instanceBlock.matchAt text 0 false = some m)
    (unit : m.named "type" = ofList u.text) :
    ∃ l : InstanceLayout, textFrom text 0 = l.text ∧ m.named "inst_name" = ofList l.label.chars ∧ l.unit = u := by
  obtain ⟨a, b, c, _, label, body, place, ⟨_, behindUnit, maps⟩, named, typed⟩ := pieces_of_match found
  obtain ⟨lead, name, g, g', start, rest, atLead, span, atName⟩ := label_of_block label (by simp)
  obtain ⟨g'', atMaps, -, -⟩ := reaches_gap behindUnit
  obtain ⟨maps, between, word, behind, isMaps, isMap, ends, atWord⟩ := maps_of_reaches maps
  have atUnit : textFrom text a.pos = segment text a.pos b.pos ++ textFrom text b.pos :=
    textFrom_split body.pos_le
  have same : segment text a.pos b.pos = u.text := String.ofList_injective (typed.symm.trans unit)
  rw [place, atWord] at atMaps
  have spaced : u.architecture = none → g''.chars ≠ [] := by
    intro alone empty
    obtain ⟨c, cs, letters⟩ := exists_cons_of_ne_nil maps.nonempty
    rw [empty, nil_append, letters] at atMaps
    have wordy : isWord c = true := maps.wordy c (by simp [letters])
    rcases end_of_unit body with edged | paren
    · rw [edged c (head?_of_textFrom atMaps)] at wordy
      exact Bool.noConfusion wordy
    · rw [same, UnitReference.text, UnitReference.suffix, alone, append_nil,
        getLast?_append_of_ne_nil _ u.unit.nonempty] at paren
      exact absurd (u.unit.wordy _ (mem_of_getLast? paren)) (by decide)
  refine ⟨⟨lead, name, g, g', u, g'', spaced, maps.chars, isMaps, between, word, isMap, behind, ends⟩, ?_, ?_, rfl⟩
  · rw [same, atMaps] at atUnit
    simp only [InstanceLayout.text, InstanceLayout.statement, InstanceLayout.mapText]
    rw [← atUnit]
    exact atLead
  · exact named _ _ _ span (segment_of_textFrom atName)

theorem form_of_reaches
    (reached : Reaches text (optional (oneOf [lit "component" ++ gap1, lit "entity" ++ gap1 ++ identifier ++ lit "."]))
      oneRow t t') : ∃ form : UnitForm, textFrom text t.pos = form.text ++ textFrom text t'.pos := by
  rcases reaches_optional reached with rfl | ⟨_, word, blanks⟩ | ⟨_, ⟨_, ⟨_, word, blanks⟩, name⟩, dot⟩
  · exact ⟨.plain, rfl⟩
  · obtain ⟨w, reads, here, -⟩ := reaches_word word
    obtain ⟨g, atGap, enough, -⟩ := reaches_gap blanks
    refine ⟨.component w reads ⟨g, length_pos_iff.mp enough⟩, ?_⟩
    rw [here, atGap, UnitForm.text, append_assoc]
  · obtain ⟨w, reads, here, -⟩ := reaches_word word
    obtain ⟨g, atGap, enough, -⟩ := reaches_gap blanks
    obtain ⟨library, atName, -⟩ := reaches_identifier name
    obtain ⟨atDot, -⟩ := reaches_mark (c := '.') (by rfl) (by decide) dot
    refine ⟨.entity w reads ⟨g, length_pos_iff.mp enough⟩ library, ?_⟩
    rw [here, atGap, atName, atDot, UnitForm.text]
    simp

theorem suffix_of_reaches
    (reached : Reaches text (optional (.group (lit "(" ++
      many1 (.set false [.category false .word, .category false .space]) ++ lit ")"))) oneRow t t') :
    ∃ architecture, ∀ form unit, textFrom text t.pos =
      UnitReference.suffix ⟨form, unit, architecture⟩ ++ textFrom text t'.pos := by
  rcases reaches_optional reached with rfl | ⟨_, ⟨_, opens, inside⟩, close⟩
  · exact ⟨none, fun _ _ => rfl⟩
  · obtain ⟨here, -⟩ := reaches_mark (c := '(') (by rfl) (by decide) opens
    obtain ⟨letters, atLetters, -⟩ := reaches_run inside
    obtain ⟨atClose, -⟩ := reaches_mark (c := ')') (by rfl) (by decide) close
    refine ⟨some letters, fun _ _ => ?_⟩
    rw [here, atLetters, atClose, UnitReference.suffix]
    simp

theorem reference_of_reaches (reached : Reaches text referenceNode oneRow t t') :
    ∃ u : UnitReference, segment text t.pos t'.pos = u.text := by
  have whole : textFrom text t.pos = segment text t.pos t'.pos ++ textFrom text t'.pos :=
    textFrom_split reached.pos_le
  obtain ⟨_, ⟨_, ⟨_, lead, name⟩, -, rfl⟩, suffix⟩ := reached
  obtain ⟨form, here⟩ := form_of_reaches lead
  obtain ⟨unit, atName, -⟩ := reaches_identifier name
  obtain ⟨architecture, behind⟩ := suffix_of_reaches suffix
  refine ⟨⟨form, unit, architecture⟩, append_cancel_right (whole.symm.trans ?_)⟩
  rw [here, atName, behind form unit, UnitReference.text]
  simp only [append_assoc]

/-- Every text that is aligned names its unit in one of the forms. -/
theorem exists_reference_of_aligned {s label unit : String} (aligned : AlignedAs s label unit) :
    ∃ u : UnitReference, unit = ofList u.text := by
  obtain ⟨m, _, _, found, -, -, rfl⟩ := aligned
  obtain ⟨a, b, _, _, -, body, -, -, -, typed⟩ := pieces_of_match found
  obtain ⟨u, same⟩ := reference_of_reaches body
  exact ⟨u, by rw [typed, same]⟩

theorem exists_layout_of_aligned {s label : String} {u : UnitReference}
    (aligned : AlignedAs s label (ofList u.text)) :
    ∃ l : InstanceLayout, s.toList = l.text ∧ label = ofList l.label.chars ∧ l.unit = u := by
  obtain ⟨m, _, _, found, -, rfl, unit⟩ := aligned
  obtain ⟨l, text, label, same⟩ := layout_of_match found unit
  rw [textFrom_zero] at text
  exact ⟨l, text, label, same⟩

end Aligned

end VhdlWorkbench.Design
